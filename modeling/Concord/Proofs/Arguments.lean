import Concord.CommandLine.Arguments
import Mathlib.Data.List.Basic
import Mathlib.Tactic.SplitIfs

/-! # Command lines made of groups

A group is the name of a sample, an option with its value behind it, or a flag. When the words of a
command line are taken, the value of an option is looked at one group late. Still a command line
comes to what its groups come to, taken one after the other: `parse_groups`. Which texts are values
is said apart from how they are read.
-/

namespace Concord.CommandLine

/-- A word that does not begin with a dash. -/
def IsPlain (word : String) : Prop := word.toList.head? ≠ some '-'

instance (word : String) : Decidable (IsPlain word) :=
  inferInstanceAs (Decidable (_ ≠ _))

/-- A text that writes a step budget: decimal digits, perhaps behind a plus sign. -/
def WritesBudget (text : String) (limit : UInt64) : Prop :=
  ∃ digits, (text.toList = digits ∨ text.toList = '+' :: digits) ∧ digits ≠ [] ∧
    (∀ c ∈ digits, c.isDigit = true) ∧ Nat.ofDigitChars 10 digits 0 = limit.toNat

theorem budget?_eq_some_iff {text : String} {limit : UInt64} :
    budget? text = some limit ↔ WritesBudget text limit := by
  have reads (digits : List Char) :
      (if digits ≠ [] ∧ digits.all Char.isDigit then
        let n := Nat.ofDigitChars 10 digits 0
        if n < UInt64.size then some (UInt64.ofNat n) else none
      else none) = some limit ↔
        digits ≠ [] ∧ (∀ c ∈ digits, c.isDigit = true) ∧
          Nat.ofDigitChars 10 digits 0 = limit.toNat := by
    rw [Option.ite_none_right_eq_some, List.all_eq_true, and_assoc]
    refine and_congr_right fun _ => and_congr_right fun _ => ?_
    rw [Option.ite_none_right_eq_some, Option.some.injEq]
    constructor
    · rintro ⟨fits, rfl⟩
      rw [UInt64.toNat_ofNat_of_lt' fits]
    · intro same
      rw [same]
      exact ⟨limit.toNat_lt_size, UInt64.ofNat_toNat⟩
  rw [WritesBudget, budget?]
  generalize text.toList = chars
  split
  · next digits =>
    rw [reads]
    constructor
    · exact fun written => ⟨digits, .inr rfl, written⟩
    · rintro ⟨other, same | same, written⟩
      · subst same
        exact absurd (written.2.1 '+' List.mem_cons_self) (by decide)
      · exact (List.cons.inj same).2 ▸ written
  · next noPlus =>
    rw [reads]
    constructor
    · exact fun written => ⟨chars, .inl rfl, written⟩
    · rintro ⟨other, same | same, written⟩
      · exact same ▸ written
      · exact (noPlus _ same).elim

theorem writesBudget_toString (limit : UInt64) : WritesBudget (toString limit.toNat) limit := by
  have isDigit (c : Char) (mem : c ∈ Nat.toDigits 10 limit.toNat) : c.isDigit = true :=
    Nat.isDigit_of_mem_toDigits (by decide) (by decide) mem
  refine ⟨Nat.toDigits 10 limit.toNat, .inl ?_, Nat.toDigits_ne_nil, isDigit,
    Nat.ofDigitChars_ten_toDigits⟩
  rw [Nat.toString_eq_ofList_toDigits, String.toList_ofList]

/-- What writes a step budget can be told from an option. -/
theorem WritesBudget.isPlain {text : String} {limit : UInt64} (writes : WritesBudget text limit) :
    IsPlain text := by
  obtain ⟨digits, written, _, isDigit, _⟩ := writes
  intro dash
  obtain same | same := written
  · have isMinus := List.mem_of_mem_head? (Option.mem_def.mpr (same ▸ dash))
    exact absurd (isDigit '-' isMinus) (by decide)
  · rw [same] at dash
    cases dash

/-- A text that names a choice of strategies: one of them by its name, or all. -/
inductive NamesStrategies : String → List Strategy → Prop where
  | all : NamesStrategies "all" Strategy.all
  | one (strategy : Strategy) : NamesStrategies strategy.name [strategy]

theorem strategies?_eq_some_iff {text : String} {strategies : List Strategy} :
    strategies? text = some strategies ↔ NamesStrategies text strategies := by
  unfold strategies?
  constructor
  · intro success
    split_ifs at success with isAll
    · cases success
      exact isAll ▸ .all
    · obtain ⟨strategy, found, rfl⟩ := Option.map_eq_some_iff.mp success
      rw [(Strategy.ofName?_eq_some_iff text strategy).mp found]
      exact .one strategy
  · rintro (_ | strategy)
    · rfl
    · rw [if_neg (by cases strategy <;> decide), Strategy.ofName?_name]
      rfl

def ValueOption.words : ValueOption → List String
  | strategy => ["--strategy", "-s"]
  | maxSteps => ["--max-steps"]

def Flag.words : Flag → List String
  | quiet => ["--quiet", "-q"]
  | json => ["--json"]
  | list => ["--list"]
  | help => ["--help", "-h"]
  | version => ["--version", "-V"]

namespace Place

variable {place : Place}

/-- A place at which the next word is not the value of an option, and may itself be one. -/
structure Ready (place : Place) : Prop where
  takesOptions : place.namesOnly = false
  complete : ∀ option, place.pending ≠ some (option, none)

/-- What has been given before a place, with the value that is still to be looked at. -/
def given (place : Place) : Except Stop Settings := place.settle.map Place.settings

theorem word_of_value {option : ValueOption} {word : String}
    (takesOptions : place.namesOnly = false) (isOption : word ∈ option.words) :
    place.word word = place.await option := by
  rw [Place.word, takesOptions]
  cases option with
  | strategy =>
    obtain rfl | rfl := List.mem_pair.mp isOption <;> rfl
  | maxSteps =>
    obtain rfl := List.mem_singleton.mp isOption
    rfl

theorem word_of_flag {flag : Flag} {word : String}
    (takesOptions : place.namesOnly = false) (isFlag : word ∈ flag.words) :
    place.word word = place.flag flag := by
  rw [Place.word, takesOptions]
  cases flag with
  | quiet | help | version =>
    obtain rfl | rfl := List.mem_pair.mp isFlag
    · rfl
    · exact bind_pure (place.flag _)
  | json | list =>
    obtain rfl := List.mem_singleton.mp isFlag
    rfl

/-- A word that does not begin with a dash is a value if one is due, and else a name. -/
theorem word_of_plain {word : String} (takesOptions : place.namesOnly = false)
    (plain : IsPlain word) :
    place.word word =
      match place.pending with
      | some (option, none) => .ok { place with pending := some (option, some word) }
      | _ => place.scenario word := by
  rw [Place.word, takesOptions, if_neg Bool.false_ne_true]
  split
  case h_4 => rfl
  all_goals
    next same => exact absurd (congrArg List.head? same) plain

/-- The value that is still to be looked at is taken like any other. -/
theorem given_of_value (settings : Settings) (option : ValueOption) (text : String) :
    ({ settings, pending := some (option, some text) } : Place).given =
      settings.takeValue option text := by
  change ((settings.takeValue option text >>= _).map _) = _
  cases settings.takeValue option text <;> rfl

theorem settle_eq (ready : place.Ready) :
    place.settle = place.given.map fun settings => { settings } := by
  obtain ⟨settings, pending, namesOnly⟩ := place
  obtain rfl : namesOnly = false := ready.takesOptions
  obtain _ | ⟨option, _ | text⟩ := pending
  · rfl
  · exact absurd rfl (ready.complete option)
  · cases taken : settings.takeValue option text <;>
      simp [settle, given, taken, bind, Except.bind, Except.map, pure, Except.pure]

end Place

/-- A part of a command line that stands for itself. -/
inductive Group where
  | name (word : String) (plain : IsPlain word)
  | value (option : ValueOption) (word text : String) (isOption : word ∈ option.words)
    (plain : IsPlain text)
  | flag (asked : Flag) (word : String) (isFlag : word ∈ asked.words)

namespace Group

def words : Group → List String
  | name word _ => [word]
  | value _ word text _ _ => [word, text]
  | flag _ word _ => [word]

/-- What a group adds to what has been given before it. -/
def take (settings : Settings) : Group → Except Stop Settings
  | name word _ => .ok { settings with scenarios := settings.scenarios ++ [word] }
  | value option _ text _ _ => settings.takeValue option text
  | flag asked _ _ => settings.takeFlag asked

/-- The place behind a group. The value of an option has not been looked at there. -/
def behind (settings : Settings) : Group → Except Stop Place
  | name word _ => .ok { settings := { settings with scenarios := settings.scenarios ++ [word] } }
  | value option _ text _ _ => .ok { settings, pending := some (option, some text) }
  | flag asked _ _ => (settings.takeFlag asked).map fun settings => { settings }

theorem ready_of_behind {group : Group} {settings : Settings} {next : Place}
    (arrived : group.behind settings = .ok next) : next.Ready := by
  cases group with
  | name | value =>
    cases arrived
    exact ⟨rfl, nofun⟩
  | flag asked =>
    rw [behind] at arrived
    cases taken : settings.takeFlag asked with
    | error stop => cases taken ▸ arrived
    | ok settings =>
      cases taken ▸ arrived
      exact ⟨rfl, nofun⟩

/-- Behind a group all has been given that it adds. -/
theorem given_behind (group : Group) (settings : Settings) :
    group.behind settings >>= Place.given = group.take settings := by
  cases group with
  | name => rfl
  | value option word text => exact Place.given_of_value settings option text
  | flag asked =>
    rw [behind, take]
    cases settings.takeFlag asked <;> rfl

/-- The words of a group lead to the place behind it. -/
theorem foldlM_words {place : Place} (ready : place.Ready) (group : Group) :
    group.words.foldlM Place.word place = place.given >>= group.behind := by
  have settled := Place.settle_eq ready
  cases group with
  | name name plain =>
    have asName : place.word name = place.scenario name := by
      rw [Place.word_of_plain ready.takesOptions plain]
      split
      · next pending => exact absurd pending (ready.complete _)
      · rfl
    rw [words, List.foldlM_cons, asName, Place.scenario, settled]
    cases place.given <;> rfl
  | value option word text isOption plain =>
    rw [words, List.foldlM_cons, Place.word_of_value ready.takesOptions isOption, Place.await,
      settled]
    cases place.given with
    | error stop => rfl
    | ok settings => exact congrArg (· >>= pure) (Place.word_of_plain rfl plain)
  | flag asked word isFlag =>
    rw [words, List.foldlM_cons, Place.word_of_flag ready.takesOptions isFlag, Place.flag, settled]
    cases place.given with
    | error stop => rfl
    | ok settings =>
      change (settings.takeFlag asked >>= _) >>= _ = (settings.takeFlag asked).map _
      cases settings.takeFlag asked <;> rfl

end Group

/-- Words that are made of groups add what the groups add, one after the other. -/
theorem given_foldlM_words {place : Place} (ready : place.Ready) (groups : List Group) :
    (groups.flatMap Group.words).foldlM Place.word place >>= Place.given =
      place.given >>= groups.foldlM Group.take := by
  induction groups generalizing place with
  | nil => rw [List.flatMap_nil, List.foldlM_nil, pure_bind]; exact (bind_pure _).symm
  | cons group groups ih =>
    rw [List.flatMap_cons, List.foldlM_append, Group.foldlM_words ready, bind_assoc, bind_assoc]
    refine bind_congr fun settings => ?_
    rw [List.foldlM_cons, ← group.given_behind]
    cases arrived : group.behind settings with
    | error stop => rfl
    | ok next => exact ih (Group.ready_of_behind arrived)

/-- The configuration that settings make together with the text of the environment variable. -/
def Settings.config (settings : Settings) (variableText : Option String) : Except Stop Config :=
  (chooseBudget settings.maxSteps variableText).map fun maxSteps =>
    { scenarios := settings.scenarios
      strategies := settings.strategies.getD Strategy.all
      maxSteps
      showTrace := !settings.quiet
      json := settings.json
      list := settings.list }

/-- A command line that is made of groups is read group by group. -/
theorem parse_groups (groups : List Group) (variableText : Option String) :
    parse (groups.flatMap Group.words) variableText =
      groups.foldlM Group.take {} >>= (Settings.config · variableText) := by
  have start : Place.Ready {} := ⟨rfl, nofun⟩
  have read := given_foldlM_words start groups
  rw [show Place.given {} = .ok {} from rfl] at read
  change _ = (Except.ok {} >>= groups.foldlM Group.take) >>= _
  rw [← read, parse]
  cases (groups.flatMap Group.words).foldlM Place.word {} with
  | error stop => rfl
  | ok last =>
    change (last.settle >>= _) = last.settle.map Place.settings >>= _
    cases last.settle with
    | error stop => rfl
    | ok last =>
      change (chooseBudget last.settings.maxSteps variableText >>= _) = Except.map _ _
      cases chooseBudget last.settings.maxSteps variableText <;> rfl

end Concord.CommandLine
