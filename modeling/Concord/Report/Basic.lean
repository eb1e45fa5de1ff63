import Concord.Config
import Concord.Execution
import Concord.Sample

/-! # Reports

A report holds everything learned from running one sample: the runs in order, whether those that
stayed within budget agree, and whether they reached the result that the sample asks for.
-/

namespace Concord

/-- What came of running one sample. -/
structure Report where
  name : String
  /-- The text of the statement that was run. -/
  program : String
  initial : Environment
  stepLimit : Option UInt64
  runs : List Run
  /-- All runs that finished within budget ended alike. -/
  agree : Bool
  /-- All runs that finished within budget ended as the sample asks. -/
  expected : Bool
deriving DecidableEq

namespace Report

def passed (report : Report) : Bool := report.agree && report.expected

def ofRuns (sample : Sample) (stepLimit : Option UInt64) (runs : List Run) : Report where
  name := sample.name
  program := sample.statement.text
  initial := sample.environment
  stepLimit := stepLimit
  runs := runs
  agree := outcomesAgree (runs.map Run.result)
  expected :=
    match sample.expected with
    | none => true
    | some expected => allSettledAs expected (runs.map Run.result)

/-- Runs a sample under every configured strategy; `none` says that the fuel was too little. -/
def ofSample? (fuel : Nat) (config : Config) (sample : Sample) : Option Report := do
  let limit := config.budgetFor sample.diverges
  let runs ← config.strategies.mapM fun strategy =>
    (strategy.execute fuel sample.statement sample.environment limit).map Execution.toRun
  return ofRuns sample limit runs

end Report

end Concord
