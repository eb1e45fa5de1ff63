import Concord.Execution
import Concord.Proofs.Determinism
import Concord.Proofs.Lockstep
import Concord.Proofs.MachineRun

/-! # Runs under a strategy

One function runs a statement under any strategy with any gas. `Returns` and `Diverges` do away with
its fuel: a run returns when some amount of fuel brings it to an end, and then every larger amount
brings it to the same one. `Strategy.run?_pays` holds of all three strategies and is what the other
modules build on: with a given fuel, either a run without a limit ends and every gas pays for it, or
the run is still going after as many units.
-/

namespace Concord.Strategy

/-- Runs a statement with the given gas: the result, and the gas as the run leaves it. -/
def run? (strategy : Strategy) (fuel : Nat) (s : Stmt) (env : Environment) (gas : Gas) :
    Option (Result × Gas) :=
  match strategy with
  | smallStep =>
    (Machine.run fuel { statement := s, environment := env, gas } {}).map
      fun (result, machine, _) => (result, machine.gas)
  | bigStep => ((s.eval fuel env).run { gas }).map fun (result, meter) => (result, meter.gas)
  | denotational =>
    ((s.meaning.apply fuel env).run { gas }).map fun (result, meter) => (result, meter.gas)

/-- An execution is a run with fresh gas, of which it keeps the strategy and the result. -/
theorem execute_eq (strategy : Strategy) (fuel : Nat) (s : Stmt) (env : Environment)
    (limit : Option UInt64) :
    (strategy.execute fuel s env limit).map (fun done => (done.strategy, done.result)) =
      (strategy.run? fuel s env (.ofLimit limit)).map fun ended => (strategy, ended.1) := by
  cases strategy with
  | smallStep =>
    let buffered : Machine :=
      { statement := s, environment := env, gas := .ofLimit limit, sink := .buffer }
    let printed : Machine := { statement := s, environment := env, gas := .ofLimit limit }
    have sameEnd : (buffered.run fuel {}).map Machine.shown =
        (printed.run fuel {}).map Machine.shown :=
      Machine.run_shown_eq buffered printed rfl rfl fuel {} {}
    calc
      _ = ((buffered.run fuel {}).map Machine.shown).map fun ended => (smallStep, ended.1) := by
        change (Option.bind (buffered.run fuel {}) _).map _ = _
        cases buffered.run fuel {} <;> rfl
      _ = ((printed.run fuel {}).map Machine.shown).map fun ended => (smallStep, ended.1) := by
        rw [sameEnd]
      _ = _ := rfl
  | bigStep =>
    simp only [execute, run?]
    cases (s.eval fuel env).run { gas := .ofLimit limit } <;> rfl
  | denotational =>
    simp only [execute, run?]
    cases (s.meaning.apply fuel env).run { gas := .ofLimit limit } <;> rfl

/-- The run comes to an end, with this result and this gas left. -/
def Returns (strategy : Strategy) (s : Stmt) (env : Environment) (gas : Gas) (result : Result)
    (left : Gas) : Prop :=
  ∃ fuel, strategy.run? fuel s env gas = some (result, left)

/-- The run never comes to an end. -/
def Diverges (strategy : Strategy) (s : Stmt) (env : Environment) (gas : Gas) : Prop :=
  ∀ fuel, strategy.run? fuel s env gas = none

/-- The run that nothing limits comes to an end with this result. -/
def Answers (strategy : Strategy) (s : Stmt) (env : Environment) (result : Result) : Prop :=
  ∃ left, strategy.Returns s env .unlimited result left

variable {strategy : Strategy} {s : Stmt} {env : Environment} {gas : Gas}

theorem diverges_iff : strategy.Diverges s env gas ↔ ∀ result left,
    ¬ strategy.Returns s env gas result left := by
  constructor
  · rintro none result left ⟨fuel, ran⟩
    rw [none fuel] at ran
    cases ran
  · intro never fuel
    cases ran : strategy.run? fuel s env gas with
    | none => rfl
    | some ended => exact absurd ⟨fuel, ran⟩ (never ended.1 ended.2)

/-- With every fuel, evaluation and meaning end alike and leave the same gas. -/
theorem run?_bigStep (fuel : Nat) (s : Stmt) (env : Environment) (gas : Gas) :
    bigStep.run? fuel s env gas = denotational.run? fuel s env gas :=
  (s.eval_alike fuel env).gas { gas }

theorem run?_of_more_fuel {fuel more : Nat} (order : fuel ≤ more) {ended : Result × Gas}
    (ran : strategy.run? fuel s env gas = some ended) :
    strategy.run? more s env gas = some ended := by
  cases strategy with
  | smallStep =>
    obtain ⟨full, finished, rfl⟩ := Option.map_eq_some_iff.mp ran
    exact Option.map_eq_some_iff.mpr ⟨full, Machine.finish_of_more_fuel order finished, rfl⟩
  | bigStep =>
    obtain ⟨full, finished, rfl⟩ := Option.map_eq_some_iff.mp ran
    exact Option.map_eq_some_iff.mpr ⟨full, Stmt.eval_below order s env _ _ finished, rfl⟩
  | denotational =>
    rw [← run?_bigStep] at ran ⊢
    obtain ⟨full, finished, rfl⟩ := Option.map_eq_some_iff.mp ran
    exact Option.map_eq_some_iff.mpr ⟨full, Stmt.eval_below order s env _ _ finished, rfl⟩

/-- A run returns one result and leaves one gas. -/
theorem Returns.unique {result other : Result} {left otherLeft : Gas}
    (returned : strategy.Returns s env gas result left)
    (again : strategy.Returns s env gas other otherLeft) : result = other ∧ left = otherLeft := by
  obtain ⟨fuel, ran⟩ := returned
  obtain ⟨more, ranAgain⟩ := again
  have here := run?_of_more_fuel (Nat.le_max_left fuel more) ran
  rw [run?_of_more_fuel (Nat.le_max_right fuel more) ranAgain] at here
  cases here
  exact ⟨rfl, rfl⟩

/-- Without a limit, the run uses so many units and comes to the result. The machine uses one for
each step, evaluation and meaning use what the rules for statements say. -/
def Bill (strategy : Strategy) (s : Stmt) (env : Environment) (units : Nat) (result : Result) :
    Prop :=
  match strategy with
  | smallStep =>
    ∃ steps, Stmt.rewriting.Ends (s, env) steps result ∧ units = Machine.unitsFor steps result
  | bigStep => s.Yields env units result
  | denotational => s.Yields env units result

/-- All strategies come to the results that the rules for statements give. -/
theorem bill_iff_yields {result : Result} :
    (∃ units, strategy.Bill s env units result) ↔ ∃ units, s.Yields env units result := by
  cases strategy with
  | smallStep =>
    rw [Stmt.yields_iff_ends]
    constructor
    · rintro ⟨_, steps, ended, _⟩
      exact ⟨steps, ended⟩
    · rintro ⟨steps, ended⟩
      exact ⟨_, steps, ended, rfl⟩
  | bigStep => exact Iff.rfl
  | denotational => exact Iff.rfl

/-- A run has one bill. -/
theorem Bill.unique {units other : Nat} {result otherResult : Result}
    (bill : strategy.Bill s env units result) (again : strategy.Bill s env other otherResult) :
    units = other ∧ result = otherResult := by
  cases strategy with
  | smallStep =>
    obtain ⟨steps, ended, rfl⟩ := bill
    obtain ⟨otherSteps, endedAgain, rfl⟩ := again
    obtain ⟨rfl, rfl⟩ := ended.unique endedAgain
    exact ⟨rfl, rfl⟩
  | bigStep => exact Stmt.Yields.unique bill again
  | denotational => exact Stmt.Yields.unique bill again

private theorem run?_smallStep_of_ends {steps : Nat} {result : Result}
    (ended : Stmt.rewriting.Ends (s, env) steps result) {fuel : Nat} (enough : steps < fuel)
    (gas : Gas) :
    smallStep.run? fuel s env gas = gas.pay (Machine.unitsFor steps result) (some result) := by
  let machine : Machine := { statement := s, environment := env, gas }
  have ended : Stmt.rewriting.Ends machine.state steps result := ended
  exact Machine.finish_pays ended enough _

private theorem run?_smallStep_of_after {fuel : Nat} {last : Stmt × Environment}
    (reached : Stmt.rewriting.after fuel (s, env) = .ok last) (gas : Gas) :
    smallStep.run? fuel s env gas = gas.pay fuel none := by
  let machine : Machine := { statement := s, environment := env, gas }
  have reached : Stmt.rewriting.after fuel machine.state = .ok last := reached
  exact Machine.finish_starves reached _

private theorem run?_bigStep_of_costs {fuel units : Nat} {ending : Option Result}
    (costs : (s.eval fuel env).Costs units ending) (gas : Gas) :
    bigStep.run? fuel s env gas = gas.pay units ending :=
  costs { gas }

/-- A bill is paid, as far as gas allows, when there is enough fuel. -/
theorem Bill.pays {units : Nat} {result : Result} (bill : strategy.Bill s env units result) :
    ∃ fuel, ∀ gas, strategy.run? fuel s env gas = gas.pay units (some result) := by
  cases strategy with
  | smallStep =>
    obtain ⟨steps, ended, rfl⟩ := bill
    exact ⟨steps + 1, run?_smallStep_of_ends ended (Nat.lt_succ_self steps)⟩
  | bigStep =>
    obtain ⟨fuel, costs⟩ := Stmt.Yields.costs bill
    exact ⟨fuel, run?_bigStep_of_costs costs⟩
  | denotational =>
    obtain ⟨fuel, costs⟩ := Stmt.Yields.costs bill
    refine ⟨fuel, fun gas => ?_⟩
    rw [← run?_bigStep]
    exact run?_bigStep_of_costs costs gas

/-- A run with some fuel pays a bill, or it is still going after as many units as it has fuel. -/
theorem run?_pays (strategy : Strategy) (fuel : Nat) (s : Stmt) (env : Environment) :
    (∃ units result, strategy.Bill s env units result ∧
      ∀ gas, strategy.run? fuel s env gas = gas.pay units (some result)) ∨
    ∃ units, fuel ≤ units ∧ ∀ gas, strategy.run? fuel s env gas = gas.pay units none := by
  have bigStepPays := Stmt.eval_costs fuel s env
  cases strategy with
  | smallStep =>
    obtain ⟨steps, enough, result, ended⟩ | ⟨last, reached⟩ :=
      Stmt.rewriting.ends_or_after fuel (s, env)
    · exact .inl ⟨_, result, ⟨steps, ended, rfl⟩, run?_smallStep_of_ends ended enough⟩
    · exact .inr ⟨fuel, Nat.le_refl fuel, run?_smallStep_of_after reached⟩
  | bigStep =>
    obtain ⟨units, result, run, costs⟩ | ⟨units, enough, costs⟩ := bigStepPays
    · exact .inl ⟨units, result, run, run?_bigStep_of_costs costs⟩
    · exact .inr ⟨units, enough, run?_bigStep_of_costs costs⟩
  | denotational =>
    simp only [← run?_bigStep]
    obtain ⟨units, result, run, costs⟩ | ⟨units, enough, costs⟩ := bigStepPays
    · exact .inl ⟨units, result, run, run?_bigStep_of_costs costs⟩
    · exact .inr ⟨units, enough, run?_bigStep_of_costs costs⟩

/-- A run with a bill returns what its gas pays for, and nothing else. -/
theorem Bill.returns_iff {units : Nat} {result : Result} (bill : strategy.Bill s env units result)
    {other : Result} {left : Gas} :
    strategy.Returns s env gas other left ↔
      gas.pay units (some result) = some (other, left) := by
  obtain ⟨fuel, pays⟩ := bill.pays
  constructor
  · intro returned
    rcases ran : gas.pay units (some result) with _ | ⟨paid, paidLeft⟩
    · simp only [Gas.pay] at ran
      split at ran <;> cases ran
    · obtain ⟨rfl, rfl⟩ := returned.unique ⟨fuel, (pays gas).trans ran⟩
      rfl
  · intro ran
    exact ⟨fuel, (pays gas).trans ran⟩

/-- With any fuel, the run is still going after as many units. -/
def Starves (strategy : Strategy) (s : Stmt) (env : Environment) : Prop :=
  ∀ fuel, ∃ units, fuel ≤ units ∧ ∀ gas, strategy.run? fuel s env gas = gas.pay units none

/-- Of a run that is going on forever, gas alone decides how it ends. -/
theorem Starves.returns (starves : strategy.Starves s env) {units : Nat} {fault : Fault}
    {after : Gas} (refused : gas.charge units = (.error fault, after)) :
    strategy.Returns s env gas (.error fault) after := by
  obtain ⟨enough, more, pays⟩ := starves units
  exact ⟨units, (pays gas).trans (Gas.pay_of_error (Gas.charge_of_refused refused more) none)⟩

/-- And if it does not refuse any units, the run has no end. -/
theorem Starves.diverges (starves : strategy.Starves s env)
    (granted : ∀ units fault after, gas.charge units ≠ (.error fault, after)) :
    strategy.Diverges s env gas := by
  intro fuel
  obtain ⟨units, _, pays⟩ := starves fuel
  rcases charged : gas.charge units with ⟨fault | _, after⟩
  · exact absurd charged (granted units fault after)
  · rw [pays, Gas.pay_of_ok charged]
    rfl

theorem Starves.diverges_unlimited (starves : strategy.Starves s env) :
    strategy.Diverges s env .unlimited := by
  refine starves.diverges fun units fault after refused => ?_
  rw [Gas.charge_of_unlimited rfl] at refused
  cases refused

/-- A run has a bill, or it is going on forever. -/
theorem bill_or_starves (strategy : Strategy) (s : Stmt) (env : Environment) :
    (∃ units result, strategy.Bill s env units result) ∨ strategy.Starves s env := by
  by_cases settles : ∃ units result, strategy.Bill s env units result
  · exact .inl settles
  · refine .inr fun fuel => ?_
    obtain ⟨units, result, bill, _⟩ | starved := run?_pays strategy fuel s env
    · exact absurd ⟨units, result, bill⟩ settles
    · exact starved

/-- What a run comes to without a limit is what its bill says. -/
theorem answers_iff_bill {result : Result} :
    strategy.Answers s env result ↔ ∃ units, strategy.Bill s env units result := by
  have limitless : Gas.unlimited.limit = none := rfl
  have paid (units : Nat) (ending : Option Result) :=
    Gas.pay_of_ok (Gas.charge_of_unlimited limitless units) ending
  constructor
  · rintro ⟨left, fuel, ran⟩
    obtain ⟨units, other, bill, pays⟩ | ⟨units, _, pays⟩ := run?_pays strategy fuel s env
    · rw [pays, paid] at ran
      cases ran
      exact ⟨units, bill⟩
    · rw [pays, paid] at ran
      cases ran
  · rintro ⟨units, bill⟩
    exact ⟨_, bill.returns_iff.mpr (paid units _)⟩

/-- What a run comes to without a limit is what the rules for statements give. -/
theorem answers_iff_yields {result : Result} :
    strategy.Answers s env result ↔ ∃ units, s.Yields env units result :=
  answers_iff_bill.trans bill_iff_yields

/-- The exhaustion of a budget is no answer. -/
theorem Answers.settled {result : Result} (answer : strategy.Answers s env result) :
    isExhausted result = false := by
  obtain ⟨units, run⟩ := answers_iff_yields.mp answer
  exact run.settled

theorem Answers.unique {result other : Result} (answer : strategy.Answers s env result)
    (again : strategy.Answers s env other) : result = other := by
  obtain ⟨left, returned⟩ := answer
  obtain ⟨otherLeft, returnedAgain⟩ := again
  exact (returned.unique returnedAgain).1

/-- A run that nothing limits goes on forever when it has no answer. -/
theorem diverges_unlimited_iff :
    strategy.Diverges s env .unlimited ↔ ∀ result, ¬ strategy.Answers s env result := by
  rw [diverges_iff]
  exact ⟨fun never result ⟨left, returned⟩ => never result left returned,
    fun never result left returned => never result ⟨left, returned⟩⟩

/-- Runs with the same answers go on forever alike. -/
theorem diverges_unlimited_congr {otherStrategy : Strategy} {other : Stmt} {otherEnv : Environment}
    (same : ∀ result,
      strategy.Answers s env result ↔ otherStrategy.Answers other otherEnv result) :
    strategy.Diverges s env .unlimited ↔ otherStrategy.Diverges other otherEnv .unlimited := by
  rw [diverges_unlimited_iff, diverges_unlimited_iff]
  exact forall_congr' fun result => not_congr (same result)

/-- With its fuel given, a run pays for so many units, and has a bill when it does not want for fuel
after them. -/
theorem run?_eq_pay (strategy : Strategy) (fuel : Nat) (s : Stmt) (env : Environment) :
    ∃ units ending, (∀ gas, strategy.run? fuel s env gas = gas.pay units ending) ∧
      ∀ result, ending = some result → strategy.Bill s env units result := by
  obtain ⟨units, own, bill, pays⟩ | ⟨units, _, pays⟩ := run?_pays strategy fuel s env
  · refine ⟨units, some own, pays, ?_⟩
    rintro result ⟨⟩
    exact bill
  · exact ⟨units, none, pays, nofun⟩

/-- Under any gas, a run comes to its own answer or to the exhaustion of the budget. -/
theorem Returns.answers_or_exhausted {result : Result} {left : Gas}
    (returned : strategy.Returns s env gas result left) :
    strategy.Answers s env result ∨
      ∃ limit, gas.limit = some limit ∧ result = .error (.stepLimitExceeded limit) := by
  obtain ⟨fuel, ran⟩ := returned
  obtain ⟨units, ending, pays, bill⟩ := run?_eq_pay strategy fuel s env
  rw [pays] at ran
  obtain ⟨_, own⟩ | exhausted := Gas.pay_eq_some ran
  · exact .inl (answers_iff_bill.mpr ⟨units, bill result own⟩)
  · exact .inr exhausted

/-- A run that comes to an environment has paid its bill. -/
theorem Returns.exists_bill {final : Environment} {left : Gas}
    (returned : strategy.Returns s env gas (.ok final) left) :
    ∃ units, strategy.Bill s env units (.ok final) := by
  obtain answer | ⟨_, _, exhausted⟩ := returned.answers_or_exhausted
  · exact answers_iff_bill.mp answer
  · cases exhausted

end Concord.Strategy
