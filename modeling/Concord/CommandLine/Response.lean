import Concord.CommandLine.Arguments
import Concord.Report.Json
import Concord.Report.Text
import Concord.UnknownName

/-! # Responses

What the program prints and how it exits, as a function of its configuration. All names are looked
up before anything is run, so a name that is unknown keeps every report from being printed.
-/

namespace Concord.CommandLine

/-- What the program prints, and its exit code. -/
structure Response where
  exitCode : UInt32
  stdout : String := ""
  stderr : String := ""
deriving DecidableEq

/-- The samples to run, in order; the first unknown name is the error. -/
def selected (config : Config) : Except UnknownName (List Sample) :=
  if config.scenarios.isEmpty then .ok Catalog.samples
  else config.scenarios.mapM Catalog.get

def printed (config : Config) (report : Report) : String :=
  if config.json then report.toJson.compact ++ "\n" else report.text config.showTrace

/-- The response to reports: it is a failure if one of them has not passed. -/
def ofReports (config : Config) (reports : List Report) : Response where
  exitCode := if reports.all Report.passed then 0 else 1
  stdout := String.join (reports.map (printed config))

def ofUnknownName (unknown : UnknownName) : Response where
  exitCode := 2
  stderr := "simp: " ++ unknown.message ++ "\n"

/-- The response to a configuration; `none` says that the fuel was too little. -/
def respond? (fuel : Nat) (config : Config) : Option Response :=
  if config.list then some { exitCode := 0, stdout := Sample.listingText Catalog.samples }
  else
    match selected config with
    | .error unknown => some (ofUnknownName unknown)
    | .ok samples => do
      let reports ← samples.mapM (Report.ofSample? fuel config)
      return ofReports config reports

/-- Help and the version are no failures. -/
def Stop.exitCode : Stop → UInt32
  | helpRequested => 0
  | versionRequested => 0
  | _ => 2

/-- The response to words that are not a configuration. Of the texts for it, only the version is the
program's own; help and usage are composed by the parser of the command line and left out here. -/
def ofStop (stop : Stop) : Response where
  exitCode := stop.exitCode
  stdout := if stop = .versionRequested then "simp 0.1.0\n" else ""

/-- The response to a command line, given the text of the variable that holds a step budget. -/
def answer? (fuel : Nat) (words : List String) (variableText : Option String) : Option Response :=
  match parse words variableText with
  | .error stop => some (ofStop stop)
  | .ok config => respond? fuel config

/-- Fuel that outlasts every step budget below the greatest one. -/
def ampleFuel : Nat := 18446744073709551616

end Concord.CommandLine
