import Concord.Proofs.Arguments
import Mathlib.Data.List.Forall2

/-! # The order of arguments

A command line expresses a configuration if it has the names in order and, anywhere between them,
each option and flag that the configuration takes, once. Groups of which no two give the same option
or flag are all taken, and add up: `Adds.foldlM_take`. So every command line that expresses a
configuration is read as it: `parse_in_any_order`.
-/

namespace Concord.CommandLine

def Settings.asks (settings : Settings) : Flag → Bool
  | .quiet => settings.quiet
  | .json => settings.json
  | .list => settings.list
  | .help | .version => false

/-- A flag that has not been given is taken, if settings know it, and changes nothing else. -/
theorem Settings.takeFlag_of_unasked {settings total : Settings} {flag : Flag}
    (unasked : settings.asks flag = false) (asked : total.asks flag = true) :
    ∃ next, settings.takeFlag flag = .ok next ∧ next.scenarios = settings.scenarios ∧
      next.strategies = settings.strategies ∧ next.maxSteps = settings.maxSteps ∧
      ∀ other, next.asks other = (settings.asks other || flag = other) := by
  cases flag with
  | quiet | json | list =>
    refine ⟨_, if_neg (ne_true_of_eq_false unasked), rfl, rfl, rfl, fun other => ?_⟩
    cases other <;> simp [asks]
  | help | version => cases asked

namespace Group

/-- The name of a sample that a group gives. -/
def name? : Group → Option String
  | name word _ => some word
  | value .. | flag .. => none

/-- The text that a group gives as the value of an option. -/
def text? (option : ValueOption) : Group → Option String
  | value other _ text _ _ => if other = option then some text else none
  | name .. | flag .. => none

/-- Whether a group gives a flag. -/
def gives (flag : Flag) : Group → Bool
  | .flag asked _ _ => asked = flag
  | name .. | value .. => false

theorem maxSteps_mem_words_iff (group : Group) :
    "--max-steps" ∈ group.words ↔ (group.text? .maxSteps).isSome = true := by
  have dashed : ¬ IsPlain "--max-steps" := by decide
  cases group with
  | name word plain =>
    have differs : "--max-steps" ≠ word := fun same => dashed (same ▸ plain)
    simp [words, text?, differs]
  | value option word text isOption plain =>
    have differs : "--max-steps" ≠ text := fun same => dashed (same ▸ plain)
    cases option with
    | strategy =>
      have other : "--max-steps" ≠ word := fun same => absurd (same ▸ isOption) (by decide)
      simp [words, text?, differs, other]
    | maxSteps =>
      obtain rfl := List.mem_singleton.mp isOption
      simp [words, text?]
  | flag asked word isFlag =>
    have other : "--max-steps" ≠ word := by
      intro same
      cases asked <;> exact absurd (same ▸ isFlag) (by decide)
    simp [words, text?, other]

end Group

/-- What has been given and what the texts stand for make up the total, which is one value at
most. -/
def Completes {α : Type} (StandsFor : String → α → Prop) (given : Option α) (texts : List String)
    (total : Option α) : Prop :=
  ∃ added, List.Forall₂ StandsFor texts added ∧ total.toList = given.toList ++ added

namespace Completes

variable {α : Type} {StandsFor : String → α → Prop} {given total : Option α} {text : String}
  {texts : List String}

theorem eq_of_nil (completes : Completes StandsFor given [] total) : total = given := by
  obtain ⟨_, ⟨⟩, sum⟩ := completes
  simpa using congrArg List.head? sum

/-- A text that is part of the total stands for all of it. -/
theorem of_cons (completes : Completes StandsFor given (text :: texts) total) :
    given = none ∧ ∃ value, StandsFor text value ∧
      Completes StandsFor (some value) texts total := by
  obtain ⟨_, ⟨⟩ | ⟨isValue, others⟩, sum⟩ := completes
  cases given with
  | none => exact ⟨rfl, _, isValue, _, others, sum⟩
  | some value =>
    cases total <;> cases sum

end Completes

/-- Settings to which groups add up, one after the other. -/
structure Adds (settings : Settings) (groups : List Group) (total : Settings) : Prop where
  scenarios : total.scenarios = settings.scenarios ++ groups.filterMap Group.name?
  strategies : Completes NamesStrategies settings.strategies
    (groups.filterMap (Group.text? .strategy)) total.strategies
  maxSteps : Completes WritesBudget settings.maxSteps
    (groups.filterMap (Group.text? .maxSteps)) total.maxSteps
  flags : ∀ flag, (total.asks flag).toNat =
    (settings.asks flag).toNat + groups.countP (Group.gives flag)

namespace Adds

variable {settings total : Settings} {group : Group} {groups : List Group}

theorem eq_of_nil (adds : Adds settings [] total) : total = settings := by
  have flags (flag : Flag) : total.asks flag = settings.asks flag := by
    rw [Bool.eq_iff_iff, ← Bool.toNat_eq_one, ← Bool.toNat_eq_one, adds.flags flag]
    rfl
  have scenarios : total.scenarios = settings.scenarios := by simpa using adds.scenarios
  cases total
  cases settings
  rw [Settings.mk.injEq]
  exact ⟨scenarios, adds.strategies.eq_of_nil, adds.maxSteps.eq_of_nil, flags .quiet, flags .json,
    flags .list⟩

/-- The first of the groups is taken, and the others add what is still missing. -/
theorem of_cons (adds : Adds settings (group :: groups) total) :
    ∃ next, group.take settings = .ok next ∧ Adds next groups total := by
  obtain ⟨scenarios, strategies, maxSteps, flags⟩ := adds
  cases group with
  | name word =>
    refine ⟨_, rfl, ?_, strategies, maxSteps, flags⟩
    rw [List.append_assoc]
    exact scenarios
  | value option word text =>
    cases option with
    | strategy =>
      obtain ⟨unset, value, isValue, strategies⟩ := strategies.of_cons
      have read := strategies?_eq_some_iff.mpr isValue
      refine ⟨{ settings with strategies := some value }, ?_, scenarios, strategies, maxSteps,
        flags⟩
      simp [Group.take, Settings.takeValue, unset, read]
    | maxSteps =>
      obtain ⟨unset, value, isValue, maxSteps⟩ := maxSteps.of_cons
      have read := budget?_eq_some_iff.mpr isValue
      refine ⟨{ settings with maxSteps := some value }, ?_, scenarios, strategies, maxSteps,
        flags⟩
      simp [Group.take, Settings.takeValue, unset, read]
  | flag given word =>
    have own := flags given
    rw [List.countP_cons_of_pos (by simp [Group.gives])] at own
    have once := Bool.toNat_le (total.asks given)
    have unasked : settings.asks given = false := Bool.toNat_eq_zero.mp (by omega)
    have asked : total.asks given = true := Bool.toNat_eq_one.mp (by omega)
    obtain ⟨next, taken, sameScenarios, sameStrategies, sameMaxSteps, asks⟩ :=
      Settings.takeFlag_of_unasked unasked asked
    refine ⟨next, taken, sameScenarios ▸ scenarios, sameStrategies ▸ strategies,
      sameMaxSteps ▸ maxSteps, fun flag => ?_⟩
    rw [flags, asks, List.countP_cons]
    by_cases same : given = flag
    · subst same
      simp [Group.gives, unasked, Nat.add_comm]
    · simp [Group.gives, same]

/-- Groups that add up to a total are all taken, and lead to it. -/
theorem foldlM_take (adds : Adds settings groups total) :
    groups.foldlM Group.take settings = .ok total := by
  induction groups generalizing settings with
  | nil => rw [adds.eq_of_nil]; rfl
  | cons group groups ih =>
    obtain ⟨next, taken, rest⟩ := adds.of_cons
    rw [List.foldlM_cons, taken]
    exact ih rest

end Adds

def Flag.wantedBy (config : Config) : Flag → Bool
  | .quiet => !config.showTrace
  | .json => config.json
  | .list => config.list
  | .help | .version => false

/-- Groups that express a configuration: they give its names in order, and besides, in any place,
everything that it takes once. All strategies need no group. -/
structure Expresses (groups : List Group) (config : Config) : Prop where
  names : groups.filterMap Group.name? = config.scenarios
  strategies : ∃ choice : Option (List Strategy),
    List.Forall₂ NamesStrategies (groups.filterMap (Group.text? .strategy)) choice.toList ∧
      config.strategies = choice.getD Strategy.all
  maxSteps : List.Forall₂ WritesBudget (groups.filterMap (Group.text? .maxSteps))
    config.maxSteps.toList
  flags : ∀ flag, groups.countP (Group.gives flag) = (flag.wantedBy config).toNat

namespace Expresses

variable {groups : List Group} {config : Config}

/-- Groups that express a configuration are read as it, but for the step budget that the environment
variable holds. -/
theorem parse_words (expresses : Expresses groups config) (variableText : Option String) :
    parse (groups.flatMap Group.words) variableText =
      (chooseBudget config.maxSteps variableText).map fun maxSteps => { config with maxSteps } := by
  obtain ⟨names, ⟨choice, chosen, strategies⟩, maxSteps, flags⟩ := expresses
  let total : Settings :=
    { scenarios := config.scenarios
      strategies := choice
      maxSteps := config.maxSteps
      quiet := !config.showTrace
      json := config.json
      list := config.list }
  have adds : Adds {} groups total := by
    refine ⟨names.symm, ⟨_, chosen, rfl⟩, ⟨_, maxSteps, rfl⟩, fun flag => ?_⟩
    rw [flags]
    cases flag <;> simp [Settings.asks, Flag.wantedBy, total]
  rw [parse_groups, adds.foldlM_take]
  change Settings.config total variableText = _
  simp [Settings.config, total, ← strategies]

/-- The word for a step budget is there exactly if there is one. -/
theorem maxSteps_iff (expresses : Expresses groups config) :
    "--max-steps" ∈ groups.flatMap Group.words ↔ config.maxSteps.isSome = true := by
  have lengths := expresses.maxSteps.length_eq
  calc "--max-steps" ∈ groups.flatMap Group.words
      ↔ ∃ group ∈ groups, (group.text? .maxSteps).isSome = true := by
        simp only [List.mem_flatMap, Group.maxSteps_mem_words_iff]
    _ ↔ groups.filterMap (Group.text? .maxSteps) ≠ [] := by
        simp [List.filterMap_eq_nil_iff, Option.isSome_iff_ne_none]
    _ ↔ config.maxSteps.isSome = true := by
        rw [← List.length_pos_iff, lengths]
        cases config.maxSteps <;> simp

end Expresses

section Existence

variable (config : Config)

def nameGroups (names : ∀ name ∈ config.scenarios, IsPlain name) : List Group :=
  config.scenarios.attach.map fun name => .name name.1 (names _ name.2)

def strategyGroups (choice : Option Strategy) : List Group :=
  choice.toList.map fun strategy =>
    .value .strategy "--strategy" strategy.name (by decide) (by cases strategy <;> decide)

def budgetGroups : List Group :=
  config.maxSteps.toList.map fun limit : UInt64 =>
    Group.value .maxSteps "--max-steps" (toString limit.toNat) (by decide)
      (WritesBudget.isPlain (writesBudget_toString limit))

def flagGroups : List Group :=
  (if config.showTrace then [] else [.flag .quiet "--quiet" (by decide)]) ++
  (if config.json then [.flag .json "--json" (by decide)] else []) ++
  (if config.list then [.flag .list "--list" (by decide)] else [])

theorem countP_flagGroups (flag : Flag) :
    (flagGroups config).countP (Group.gives flag) = (flag.wantedBy config).toNat := by
  unfold flagGroups Flag.wantedBy
  cases flag <;> cases config.showTrace <;> cases config.json <;> cases config.list <;> rfl

theorem filterMap_flagGroups :
    (flagGroups config).filterMap Group.name? = [] ∧
      ∀ option, (flagGroups config).filterMap (Group.text? option) = [] := by
  unfold flagGroups
  cases config.showTrace <;> cases config.json <;> cases config.list <;> exact ⟨rfl, fun _ => rfl⟩

variable {config}

/-- Whatever can be asked for can be expressed. -/
theorem exists_expresses
    (strategies : config.strategies = Strategy.all ∨ ∃ strategy, config.strategies = [strategy])
    (names : ∀ name ∈ config.scenarios, IsPlain name) : ∃ groups, Expresses groups config := by
  obtain ⟨choice, same⟩ : ∃ choice : Option Strategy,
      config.strategies = (choice.map ([·])).getD Strategy.all := by
    obtain all | ⟨strategy, one⟩ := strategies
    · exact ⟨none, all⟩
    · exact ⟨some strategy, one⟩
  obtain ⟨noNames, noTexts⟩ := filterMap_flagGroups config
  let groups := nameGroups config names ++ strategyGroups choice ++ budgetGroups config ++
    flagGroups config
  have chosen : groups.filterMap (Group.text? .strategy) = choice.toList.map Strategy.name := by
    simp [groups, nameGroups, strategyGroups, budgetGroups, noTexts, List.filterMap_map,
      Function.comp_def, Group.text?]
  have limits : groups.filterMap (Group.text? .maxSteps) =
      config.maxSteps.toList.map fun limit => toString limit.toNat := by
    simp [groups, nameGroups, strategyGroups, budgetGroups, noTexts, List.filterMap_map,
      Function.comp_def, Group.text?]
  refine ⟨groups, ?_, ⟨choice.map ([·]), ?_, same⟩, ?_, ?_⟩
  · simp [groups, nameGroups, strategyGroups, budgetGroups, noNames, List.filterMap_map,
      Function.comp_def, Group.name?]
  · rw [chosen]
    cases choice with
    | none => exact .nil
    | some strategy => exact .cons (.one strategy) .nil
  · rw [limits, List.forall₂_map_left_iff, List.forall₂_same]
    exact fun limit _ => writesBudget_toString limit
  · simp [groups, nameGroups, strategyGroups, budgetGroups, countP_flagGroups, List.countP_map,
      Function.comp_def, Group.gives]

end Existence

/-- A command line that expresses a configuration is read as it, in whatever order. A step budget on
it overrides the environment variable, whatever that holds; else the environment variable gives the
step budget, and changes nothing more. -/
theorem parse_in_any_order {config : Config}
    (strategies : config.strategies = Strategy.all ∨ ∃ strategy, config.strategies = [strategy])
    (names : ∀ name ∈ config.scenarios, IsPlain name) :
    (∃ groups, Expresses groups config) ∧
    ∀ groups, Expresses groups config →
      parse (groups.flatMap Group.words) none = .ok config ∧
      ("--max-steps" ∈ groups.flatMap Group.words →
        ∀ variableText, parse (groups.flatMap Group.words) variableText = .ok config) ∧
      ("--max-steps" ∉ groups.flatMap Group.words → ∀ text limit, WritesBudget text limit →
        parse (groups.flatMap Group.words) (some text) =
          .ok { config with maxSteps := some limit }) := by
  refine ⟨exists_expresses strategies names, fun groups expresses => ?_⟩
  obtain ⟨scenarios, strategies, maxSteps, showTrace, json, list⟩ := config
  simp only [expresses.maxSteps_iff, expresses.parse_words]
  cases maxSteps with
  | none =>
    refine ⟨rfl, nofun, fun _ text limit written => ?_⟩
    rw [chooseBudget, budget?_eq_some_iff.mpr written]
    rfl
  | some limit => exact ⟨rfl, fun _ _ => rfl, fun unset => absurd rfl unset⟩

private def twoNames : Config :=
  { scenarios := ["while", "if"], strategies := [.bigStep], maxSteps := some 30,
    showTrace := false, json := true }

/-- Names stand between options here, and one of them behind a value. -/
private def interleaved : List Group :=
  [.flag .json "--json" (by decide), .name "while" (by decide),
    .value .strategy "-s" "big-step" (by decide) (by decide), .name "if" (by decide),
    .value .maxSteps "--max-steps" "+30" (by decide) (by decide), .flag .quiet "-q" (by decide)]

theorem parse_in_any_order_interleaved :
    parse ["--json", "while", "-s", "big-step", "if", "--max-steps", "+30", "-q"] (some "many") =
      .ok twoNames := by
  have written : WritesBudget "+30" 30 := budget?_eq_some_iff.mp rfl
  have expresses : Expresses interleaved twoNames := by
    refine ⟨rfl, ⟨some [.bigStep], .cons (.one .bigStep) .nil, rfl⟩, .cons written .nil, ?_⟩
    intro flag
    cases flag <;> rfl
  have strategies : twoNames.strategies = [.bigStep] := rfl
  have names : ∀ name ∈ twoNames.scenarios, IsPlain name := by decide
  obtain ⟨_, read⟩ := parse_in_any_order (.inr ⟨_, strategies⟩) names
  obtain ⟨_, overrides, _⟩ := read interleaved expresses
  exact overrides (by decide) (some "many")

end Concord.CommandLine
