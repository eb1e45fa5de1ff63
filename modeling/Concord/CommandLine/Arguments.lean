import Concord.Config

/-! # Arguments

The words of the command line, read from left to right. An option takes its value from the same word
(`--max-steps=9`, `-sbig-step`) or from the next one. A value from a word of its own is looked at
only when the next option or sample name comes, or at the end, so an unknown option behind it is
found first. Behind `--` every word is a sample name.
-/

namespace Concord.CommandLine

/-- Why the words are not a configuration. -/
inductive Stop where
  /-- An option lacks its value, or the value is none of its words. -/
  | invalidValue
  /-- A step budget is no number. -/
  | invalidNumber
  /-- A word looks like an option and is none. -/
  | unknownArgument
  /-- An option or flag is given twice. -/
  | repeatedArgument
  /-- A flag is given a value. -/
  | unexpectedValue
  | helpRequested
  | versionRequested
deriving DecidableEq

/-- An option that takes a value. -/
inductive ValueOption where
  | strategy
  | maxSteps
deriving DecidableEq

/-- An option that takes none. -/
inductive Flag where
  | quiet
  | json
  | list
  | help
  | version
deriving DecidableEq

/-- What a word that begins with a dash names. -/
inductive Switch where
  | value (option : ValueOption)
  | flag (flag : Flag)
deriving DecidableEq

def Switch.ofLong? (name : String) : Option Switch :=
  if name = "strategy" then some (.value .strategy)
  else if name = "max-steps" then some (.value .maxSteps)
  else if name = "quiet" then some (.flag .quiet)
  else if name = "json" then some (.flag .json)
  else if name = "list" then some (.flag .list)
  else if name = "help" then some (.flag .help)
  else if name = "version" then some (.flag .version)
  else none

def Switch.ofLetter? (letter : Char) : Option Switch :=
  if letter = 's' then some (.value .strategy)
  else if letter = 'q' then some (.flag .quiet)
  else if letter = 'h' then some (.flag .help)
  else if letter = 'V' then some (.flag .version)
  else none

/-- Reads a step budget: digits, perhaps behind a plus sign, whose value fits 64 bits. -/
def budget? (text : String) : Option UInt64 :=
  let digits :=
    match text.toList with
    | '+' :: digits => digits
    | digits => digits
  if digits ≠ [] ∧ digits.all Char.isDigit then
    let n := Nat.ofDigitChars 10 digits 0
    if n < UInt64.size then some (UInt64.ofNat n) else none
  else none

/-- Reads a choice of strategies: one by its name, or all. -/
def strategies? (text : String) : Option (List Strategy) :=
  if text = "all" then some Strategy.all
  else (Strategy.ofName? text).map fun strategy => [strategy]

/-- What has been given so far. -/
structure Settings where
  scenarios : List String := []
  strategies : Option (List Strategy) := none
  maxSteps : Option UInt64 := none
  quiet : Bool := false
  json : Bool := false
  list : Bool := false
deriving DecidableEq

namespace Settings

/-- Takes the value of an option; that the option is new is asked first. -/
def takeValue (settings : Settings) (option : ValueOption) (text : String) :
    Except Stop Settings :=
  match option with
  | .strategy =>
    if settings.strategies.isSome then .error .repeatedArgument
    else
      match strategies? text with
      | some strategies => .ok { settings with strategies := some strategies }
      | none => .error .invalidValue
  | .maxSteps =>
    if settings.maxSteps.isSome then .error .repeatedArgument
    else
      match budget? text with
      | some limit => .ok { settings with maxSteps := some limit }
      | none => .error .invalidNumber

def takeFlag (settings : Settings) : Flag → Except Stop Settings
  | .quiet =>
    if settings.quiet then .error .repeatedArgument else .ok { settings with quiet := true }
  | .json =>
    if settings.json then .error .repeatedArgument else .ok { settings with json := true }
  | .list =>
    if settings.list then .error .repeatedArgument else .ok { settings with list := true }
  | .help => .error .helpRequested
  | .version => .error .versionRequested

end Settings

/-- A place between two words. -/
structure Place where
  settings : Settings := {}
  /-- An option whose value is a word of its own, with that word if it has come. -/
  pending : Option (ValueOption × Option String) := none
  /-- Whether `--` has come. -/
  namesOnly : Bool := false

namespace Place

/-- Looks at the value of the option that is pending. -/
def settle (place : Place) : Except Stop Place :=
  match place.pending with
  | none => .ok place
  | some (_, none) => .error .invalidValue
  | some (option, some text) => do
    let settings ← place.settings.takeValue option text
    return { place with settings, pending := none }

/-- Takes an option with a value that is part of the same word. -/
def attached (place : Place) (option : ValueOption) (text : String) : Except Stop Place := do
  let place ← place.settle
  let settings ← place.settings.takeValue option text
  return { place with settings }

/-- Takes an option whose value is to be the next word. -/
def await (place : Place) (option : ValueOption) : Except Stop Place := do
  let place ← place.settle
  return { place with pending := some (option, none) }

def flag (place : Place) (flag : Flag) : Except Stop Place := do
  let place ← place.settle
  let settings ← place.settings.takeFlag flag
  return { place with settings }

def scenario (place : Place) (name : String) : Except Stop Place := do
  let place ← place.settle
  return { place with
    settings := { place.settings with scenarios := place.settings.scenarios ++ [name] } }

/-- Takes the part of a word behind two dashes: a name, and a value behind an equals sign. -/
def long (place : Place) (chars : List Char) : Except Stop Place :=
  let name := String.ofList (chars.takeWhile (· ≠ '='))
  match Switch.ofLong? name, chars.dropWhile (· ≠ '=') with
  | none, _ => .error .unknownArgument
  | some (.flag _), _ :: _ => .error .unexpectedValue
  | some (.flag flag), [] => place.flag flag
  | some (.value option), _ :: text => place.attached option (String.ofList text)
  | some (.value option), [] => place.await option

/-- Takes the letters of a word behind one dash; what follows a letter that takes a value is it. -/
def letters (place : Place) : List Char → Except Stop Place
  | [] => .ok place
  | letter :: rest =>
    match Switch.ofLetter? letter with
    | none => .error .unknownArgument
    | some (.flag flag) => do
      let place ← place.flag flag
      place.letters rest
    | some (.value option) =>
      match rest with
      | [] => place.await option
      | '=' :: text => place.attached option (String.ofList text)
      | text => place.attached option (String.ofList text)

def word (place : Place) (word : String) : Except Stop Place :=
  if place.namesOnly then place.scenario word
  else
    match word.toList with
    | ['-', '-'] => .ok { place with namesOnly := true }
    | '-' :: '-' :: chars => place.long chars
    | '-' :: letter :: rest => place.letters (letter :: rest)
    | _ =>
      match place.pending with
      | some (option, none) => .ok { place with pending := some (option, some word) }
      | _ => place.scenario word

end Place

/-- The step budget: the option's if it was given, else that of the environment variable. -/
def chooseBudget (given : Option UInt64) (variableText : Option String) :
    Except Stop (Option UInt64) :=
  match given, variableText with
  | some limit, _ => .ok (some limit)
  | none, none => .ok none
  | none, some text =>
    match budget? text with
    | some limit => .ok (some limit)
    | none => .error .invalidNumber

/-- The configuration that the words ask for, with the step budget that the environment variable
holds, if it is set. -/
def parse (words : List String) (variableText : Option String) : Except Stop Config := do
  let place ← words.foldlM Place.word {}
  let place ← place.settle
  let settings := place.settings
  let maxSteps ← chooseBudget settings.maxSteps variableText
  return {
    scenarios := settings.scenarios
    strategies := settings.strategies.getD Strategy.all
    maxSteps
    showTrace := !settings.quiet
    json := settings.json
    list := settings.list }

end Concord.CommandLine
