import Concord.Machine.Session
import Concord.Proofs.StrategyRun
import Mathlib.Algebra.Order.Ring.Nat

/-! # What a session does to its machine

Whatever is done with a machine, and in whatever order, its state is a state of the reduction that
it was started with, and its step count says which one. A call of `step` that fails changes the gas
and nothing else. So nothing is lost when a run is cut short: whatever has happened before, the
first run that its gas does not end comes to what one run without a limit comes to from the start.

The step count is a word. `steps = .ofNat reductions` says what it holds, also for a machine that
has made more steps than a word can count.
-/

namespace Concord.Machine

open Rewriting

variable {machine next last : Machine}

/-- A step succeeds when gas grants it and the statement can be reduced. -/
theorem step_eq_ok (stepped : machine.step = (.ok (), next)) :
    ∃ state, Stmt.rewriting.step machine.state = .ok state ∧ next = machine.advance state := by
  cases granted : machine.gas.spend.check with
  | error refusal =>
    rw [step_of_refused granted] at stepped
    cases stepped
  | ok =>
    cases reduced : Stmt.rewriting.step machine.state with
    | error fault =>
      rw [step_of_fault granted reduced] at stepped
      cases stepped
    | ok state =>
      rw [step_of_ok granted reduced] at stepped
      cases stepped
      exact ⟨state, rfl, rfl⟩

/-- A step fails when gas refuses it or the reduction fails, and leaves all but the gas alone. -/
theorem step_eq_error {fault : Fault} (stepped : machine.step = (.error fault, next)) :
    next = { machine with gas := machine.gas.spend } ∧
      (machine.gas.spend.check = .error fault ∨
        Stmt.rewriting.step machine.state = .error fault) := by
  cases granted : machine.gas.spend.check with
  | error refusal =>
    rw [step_of_refused granted] at stepped
    cases stepped
    exact ⟨rfl, .inl rfl⟩
  | ok =>
    cases reduced : Stmt.rewriting.step machine.state with
    | error failure =>
      rw [step_of_fault granted reduced] at stepped
      cases stepped
      exact ⟨rfl, .inr rfl⟩
    | ok state =>
      rw [step_of_ok granted reduced] at stepped
      cases stepped

/-- The later machine has made so many reductions more, and has counted them. -/
structure Reduces (machine next : Machine) (reductions : Nat) : Prop where
  state : Stmt.rewriting.after reductions machine.state = .ok next.state
  steps : next.steps = machine.steps + .ofNat reductions

/-- The later machine has used so many units of gas more. -/
def Uses (machine next : Machine) (units : Nat) : Prop :=
  next.gas = { machine.gas with used := machine.gas.used + .ofNat units }

namespace Reduces

theorem of_same (state : next.state = machine.state) (steps : next.steps = machine.steps) :
    machine.Reduces next 0 where
  state := by rw [after, state]
  steps := by simp [steps]

theorem advance {state : Stmt × Environment}
    (reduced : Stmt.rewriting.step machine.state = .ok state) :
    machine.Reduces (machine.advance state) 1 where
  state := by rw [after_succ_of_ok reduced, after, state_advance]
  steps := rfl

theorem trans {first second : Nat} (before : machine.Reduces last first)
    (onward : last.Reduces next second) : machine.Reduces next (first + second) where
  state := (after_add before.state second).trans onward.state
  steps := by rw [onward.steps, before.steps, UInt64.ofNat_add, UInt64.add_assoc]

/-- Of one machine, the machines at the end of the reduction have the same state and step count. -/
theorem same_end {other : Machine} {steps others : Nat} {result : Result}
    (reduces : machine.Reduces next steps) (stopped : Stmt.rewriting.stop? next.state = some result)
    (again : machine.Reduces other others)
    (stoppedAgain : Stmt.rewriting.stop? other.state = some result) :
    next.state = other.state ∧ next.steps = other.steps := by
  have first : Stmt.rewriting.Ends machine.state steps result := ⟨_, reduces.state, stopped⟩
  have second : Stmt.rewriting.Ends machine.state others result := ⟨_, again.state, stoppedAgain⟩
  obtain ⟨rfl, _⟩ := first.unique second
  refine ⟨Except.ok.inj (reduces.state.symm.trans again.state), ?_⟩
  rw [reduces.steps, again.steps]

end Reduces

namespace Uses

theorem none (same : next.gas = machine.gas) : machine.Uses next 0 := by
  simp [Uses, same]

theorem spend (spent : next.gas = machine.gas.spend) : machine.Uses next 1 := spent

theorem trans {first second : Nat} (before : machine.Uses last first)
    (onward : last.Uses next second) : machine.Uses next (first + second) := by
  unfold Uses at *
  rw [onward, before, UInt64.ofNat_add, UInt64.add_assoc]

end Uses

/-- A call of `step` that returns a fault counts as one failure, and one that does not as none. -/
def failures {α : Type} : Except Fault α → Nat
  | .ok _ => 0
  | .error _ => 1

/-- Every call of `step` uses one unit, and reduces once if it does not fail. -/
theorem progress_of_step {result : Except Fault Unit} (stepped : machine.step = (result, next)) :
    ∃ reductions, reductions + failures result = 1 ∧ machine.Reduces next reductions ∧
      machine.Uses next 1 := by
  cases result with
  | ok value =>
    obtain ⟨state, reduced, rfl⟩ := step_eq_ok stepped
    exact ⟨1, rfl, .advance reduced, .spend rfl⟩
  | error fault =>
    obtain ⟨rfl, _⟩ := step_eq_error stepped
    exact ⟨0, rfl, .of_same rfl rfl, .spend rfl⟩

/-- How a run is over that makes no further successful step from the last machine: in a normal form,
or with a call of `step` that fails. -/
def Stops (last : Machine) : Result → Machine → Prop
  | .ok final, next => last.state = (.skip, final) ∧ next = last
  | .error fault, next => last.statement.isReducible = true ∧ last.step = (.error fault, next)

/-- A run is made of successful steps, each for one unit, up to the place where it stops. -/
theorem progress_of_finish {fuel : Nat} {trace left : Trace} {result : Result}
    (ran : finish fuel machine trace = some (result, next, left)) :
    ∃ reductions last, reductions < fuel ∧ machine.Reduces last reductions ∧
      machine.Uses last reductions ∧ last.Stops result next := by
  induction fuel generalizing machine trace with
  | zero => cases ran
  | succ fuel ih =>
    by_cases reducible : machine.statement.isReducible = true
    · rcases stepped : machine.step with ⟨fault | _, after⟩
      · rw [finish_of_error reducible stepped] at ran
        cases ran
        exact ⟨0, machine, Nat.succ_pos fuel, .of_same rfl rfl, .none rfl, reducible, stepped⟩
      · rw [finish_of_ok reducible stepped] at ran
        obtain ⟨reductions, last, within, reduces, uses, stops⟩ := ih ran
        obtain ⟨state, reduced, rfl⟩ := step_eq_ok stepped
        refine ⟨1 + reductions, last, by omega, ?_, ?_, stops⟩
        · exact (Reduces.advance reduced).trans reduces
        · exact (Uses.spend rfl).trans uses
    · have normal : machine.statement.isReducible = false := by simpa using reducible
      have done : machine.state = (.skip, machine.environment) :=
        Prod.ext ((Stmt.isReducible_eq_false_iff machine.statement).mp normal) rfl
      rw [finish_of_normal normal] at ran
      cases ran
      exact ⟨0, _, Nat.succ_pos fuel, .of_same rfl rfl, .none rfl, done, rfl⟩

/-- Where a run is over, only a failing call of `step` is added to it. -/
theorem Stops.progress {result : Result} (stops : last.Stops result next) :
    last.Reduces next 0 ∧ last.Uses next (failures result) := by
  cases result with
  | ok final =>
    obtain ⟨_, rfl⟩ := stops
    exact ⟨.of_same rfl rfl, .none rfl⟩
  | error fault =>
    obtain ⟨rfl, _⟩ := step_eq_error stops.2
    exact ⟨.of_same rfl rfl, .spend rfl⟩

/-- A run that is not ended by its gas is over where the reduction stops. -/
theorem Stops.stop {result : Result} (stops : last.Stops result next)
    (unlimited : isExhausted result = false) : Stmt.rewriting.stop? next.state = some result := by
  cases result with
  | ok final =>
    obtain ⟨done, rfl⟩ := stops
    rw [done]
    exact stop?_of_value rfl
  | error fault =>
    obtain ⟨reducible, stepped⟩ := stops
    obtain ⟨rfl, refused | failed⟩ := step_eq_error stepped
    · obtain ⟨limit, _, _, rfl⟩ := (Gas.check_eq_error_iff _ _).mp refused
      cases unlimited
    · refine stop?_of_fault ?_ failed
      simpa [Stmt.rewriting, state] using reducible

/-- The run of a machine that nothing limits comes to where the reduction stops. -/
theorem exists_run_of_ends {steps : Nat} {result : Result}
    (ended : Stmt.rewriting.Ends machine.state steps result) (limitless : machine.gas.limit = none)
    (trace : Trace) : ∃ fuel next left, run fuel machine trace = some (result, next, left) := by
  have paid := finish_pays ended (Nat.lt_succ_self steps)
    (machine.emit (trace.report (.machineStarted machine.statement machine.gas.limit)))
  rw [Gas.pay_of_ok (Gas.charge_of_unlimited limitless _)] at paid
  obtain ⟨⟨own, next, left⟩, ran, same⟩ := Option.map_eq_some_iff.mp paid
  obtain ⟨rfl, _⟩ := Prod.mk.inj same
  exact ⟨steps + 1, next, left, ran⟩

/-- A run that is not ended by its gas ends the reduction. -/
theorem run_of_unexhausted {fuel : Nat} {trace left : Trace} {result : Result}
    (ran : run fuel machine trace = some (result, next, left))
    (unexhausted : isExhausted result = false) :
    ∃ reductions, machine.Reduces next reductions ∧
      Stmt.rewriting.stop? next.state = some result := by
  obtain ⟨reductions, last, _, reduces, _, stops⟩ := progress_of_finish ran
  exact ⟨reductions, reduces.trans stops.progress.1, stops.stop unexhausted⟩

namespace Action

/-- The actions after which the gas is no longer counted on from where it was. -/
def setsGas : Action → Bool
  | limitTo _ => true
  | refuel _ => true
  | _ => false

end Action

/-- The calls of `step` that have failed in an action that has been answered. Those that a copy has
made are no calls of the machine. -/
def failedCalls : Action × Reply → Nat
  | (.step, .stepped result) => failures result
  | (.run, .ended result) => failures result
  | _ => 0

namespace Session

/-- A session with a new machine, which is not limited and prints its trace. -/
def new (s : Stmt) (env : Environment) : Session where
  machine := { statement := s, environment := env }

variable {session after : Session} {fuel : Nat}

/-- To have a machine stepped is to call `step`. -/
theorem step_of_perform {reply : Reply}
    (performed : session.perform fuel .step = some (reply, after)) :
    ∃ result, session.machine.step = (result, after.machine) ∧ reply = .stepped result := by
  simp only [perform, tracedStep] at performed
  rcases stepped : session.machine.step with ⟨fault | _, machine⟩
  all_goals
    rw [stepped] at performed
    cases performed
    exact ⟨_, rfl, rfl⟩

/-- To have a machine run is to call `run`. -/
theorem perform_run_iff {reply : Reply} :
    session.perform fuel .run = some (reply, after) ↔
      ∃ result, session.machine.run fuel session.trace = some (result, after.machine, after.trace) ∧
        reply = .ended result := by
  simp only [perform]
  cases session.machine.run fuel session.trace with
  | none => simp
  | some ended =>
    obtain ⟨result, machine, trace⟩ := ended
    constructor
    · intro performed
      cases performed
      exact ⟨result, rfl, rfl⟩
    · rintro ⟨result, same, rfl⟩
      cases same
      rfl

/-- A copy that runs leaves the machine as it is. -/
theorem machine_of_perform_runCopy {reply : Reply}
    (performed : session.perform fuel .runCopy = some (reply, after)) :
    after.machine = session.machine := by
  simp only [perform] at performed
  cases ran : session.machine.run fuel session.trace with
  | none => simp [ran] at performed
  | some ended =>
    rw [ran] at performed
    cases performed
    rfl

/-- An action reduces the statement some number of times. Unless it sets the gas, it uses one unit
for each of these reductions and one for a call of `step` that has failed. -/
theorem progress_of_perform {action : Action} {reply : Reply}
    (performed : session.perform fuel action = some (reply, after)) :
    ∃ reductions, reductions ≤ max 1 fuel ∧ session.machine.Reduces after.machine reductions ∧
      (action.setsGas = false →
        session.machine.Uses after.machine (reductions + failedCalls (action, reply))) := by
  cases action with
  | step =>
    obtain ⟨result, stepped, rfl⟩ := step_of_perform performed
    obtain ⟨reductions, calls, reduces, uses⟩ := progress_of_step stepped
    refine ⟨reductions, by omega, reduces, fun _ => ?_⟩
    rwa [failedCalls, calls]
  | run =>
    obtain ⟨result, ran, rfl⟩ := perform_run_iff.mp performed
    obtain ⟨reductions, last, within, reduces, uses, stops⟩ := progress_of_finish ran
    obtain ⟨kept, paid⟩ := stops.progress
    exact ⟨reductions, by omega, reduces.trans kept, fun _ => uses.trans paid⟩
  | runCopy =>
    have same := machine_of_perform_runCopy performed
    refine ⟨0, Nat.zero_le _, .of_same (by rw [same]) (by rw [same]), fun _ => .none (by rw [same])⟩
  | limitTo limit =>
    cases performed
    exact ⟨0, Nat.zero_le _, .of_same rfl rfl, nofun⟩
  | refuel gas =>
    cases performed
    exact ⟨0, Nat.zero_le _, .of_same rfl rfl, nofun⟩
  | traceTo sink =>
    cases performed
    exact ⟨0, Nat.zero_le _, .of_same rfl rfl, fun _ => .none rfl⟩
  | clearTrace =>
    cases performed
    exact ⟨0, Nat.zero_le _, .of_same rfl rfl, fun _ => .none rfl⟩

theorem performAll_cons_iff {action : Action} {rest : List Action} {replies : List Reply} :
    session.performAll fuel (action :: rest) = some (replies, after) ↔
      ∃ reply middle others, session.perform fuel action = some (reply, middle) ∧
        middle.performAll fuel rest = some (others, after) ∧ replies = reply :: others := by
  simp only [performAll, bind, Option.bind_eq_some_iff, pure, Option.some.injEq, Prod.mk.injEq]
  constructor
  · rintro ⟨⟨reply, middle⟩, performed, ⟨others, last⟩, onward, rfl, rfl⟩
    exact ⟨reply, middle, others, performed, onward, rfl⟩
  · rintro ⟨reply, middle, others, performed, onward, rfl⟩
    exact ⟨(reply, middle), performed, (others, after), onward, rfl, rfl⟩

/-- Actions reduce the statement some number of times. As long as none of them sets the gas, they
use one unit for each of these reductions and one for each call of `step` that has failed. -/
theorem progress_of_performAll {actions : List Action} {replies : List Reply}
    (performed : session.performAll fuel actions = some (replies, after)) :
    ∃ reductions, reductions ≤ actions.length * max 1 fuel ∧
      session.machine.Reduces after.machine reductions ∧
      ((∀ action ∈ actions, action.setsGas = false) → session.machine.Uses after.machine
        (reductions + ((actions.zip replies).map failedCalls).sum)) := by
  induction actions generalizing session replies with
  | nil =>
    cases performed
    exact ⟨0, Nat.zero_le _, .of_same rfl rfl, fun _ => .none rfl⟩
  | cons action rest ih =>
    obtain ⟨reply, middle, others, first, onward, rfl⟩ := performAll_cons_iff.mp performed
    obtain ⟨reductions, within, reduces, uses⟩ := progress_of_perform first
    obtain ⟨more, withinRest, reducesRest, usesRest⟩ := ih onward
    refine ⟨reductions + more, ?_, reduces.trans reducesRest, fun counted => ?_⟩
    · rw [List.length_cons, Nat.succ_mul]
      omega
    · obtain ⟨head, tail⟩ := List.forall_mem_cons.mp counted
      have all := (uses head).trans (usesRest tail)
      rw [List.zip_cons_cons, List.map_cons, List.sum_cons]
      rwa [Nat.add_add_add_comm] at all

/-- The run of a new machine that nothing limits is not ended by its gas. -/
theorem unexhausted_of_new {s : Stmt} {env : Environment} {result : Result}
    (ran : (new s env).perform fuel .run = some (.ended result, after)) :
    isExhausted result = false := by
  obtain ⟨own, ran, same⟩ := perform_run_iff.mp ran
  cases same
  have answer : Strategy.smallStep.Answers s env result :=
    ⟨after.machine.gas, fuel, Option.map_eq_some_iff.mpr ⟨_, ran, rfl⟩⟩
  exact answer.settled

/-- A run that its gas does not end comes to where one run without a limit comes to from the start:
the reduction has one end. -/
theorem exists_uninterrupted_of_run {s : Stmt} {env : Environment} {reductions : Nat}
    (reduces : (new s env).machine.Reduces session.machine reductions) {result : Result}
    (ran : session.perform fuel .run = some (.ended result, after))
    (unexhausted : isExhausted result = false) :
    ∃ enough whole, (new s env).perform enough .run = some (.ended result, whole) ∧
      after.machine.state = whole.machine.state ∧ after.machine.steps = whole.machine.steps := by
  obtain ⟨_, ran, same⟩ := perform_run_iff.mp ran
  cases same
  obtain ⟨more, onward, stopped⟩ := run_of_unexhausted ran unexhausted
  have whole := reduces.trans onward
  have limitless : (new s env).machine.gas.limit = none := rfl
  obtain ⟨enough, machine, trace, uninterrupted⟩ :=
    exists_run_of_ends ⟨_, whole.state, stopped⟩ limitless {}
  obtain ⟨others, again, stoppedAgain⟩ := run_of_unexhausted uninterrupted unexhausted
  refine ⟨enough, { machine, trace }, perform_run_iff.mpr ⟨result, uninterrupted, rfl⟩, ?_⟩
  exact whole.same_end stopped again stoppedAgain

/-- What is left of the reduction ends where the whole does, and fresh gas is enough for it. -/
theorem exists_run_of_uninterrupted {s : Stmt} {env : Environment} {reductions : Nat}
    (reduces : (new s env).machine.Reduces session.machine reductions) {enough : Nat}
    {result : Result} {whole : Session}
    (uninterrupted : (new s env).perform enough .run = some (.ended result, whole)) :
    ∃ fuel last, session.performAll fuel [.refuel .unlimited, .run] =
        some ([.done, .ended result], last) ∧
      last.machine.state = whole.machine.state ∧ last.machine.steps = whole.machine.steps := by
  have unexhausted := unexhausted_of_new uninterrupted
  obtain ⟨_, ran, same⟩ := perform_run_iff.mp uninterrupted
  cases same
  obtain ⟨all, again, stoppedAgain⟩ := run_of_unexhausted ran unexhausted
  obtain ⟨rest, rfl, left⟩ := Ends.of_after reduces.state ⟨_, again.state, stoppedAgain⟩
  let refueled : Machine := { session.machine with gas := .unlimited }
  have left : Stmt.rewriting.Ends refueled.state rest result := left
  obtain ⟨fuel, machine, trace, resumed⟩ := exists_run_of_ends left rfl session.trace
  obtain ⟨more, onward, stopped⟩ := run_of_unexhausted resumed unexhausted
  have onward : session.machine.Reduces machine more := ⟨onward.state, onward.steps⟩
  refine ⟨fuel, { machine, trace }, ?_, (reduces.trans onward).same_end stopped again stoppedAgain⟩
  refine performAll_cons_iff.mpr ⟨_, { session with machine := refueled }, _, rfl, ?_, rfl⟩
  exact performAll_cons_iff.mpr ⟨_, _, [], perform_run_iff.mpr ⟨result, resumed, rfl⟩, rfl, rfl⟩

/-- What is true of a session with a machine for the statement, in which at most so many calls of
`step` have been made, whatever has been done in it. -/
structure Faithful (s : Stmt) (env : Environment) (calls : Nat) (session : Session) : Prop where
  /-- The state is what the counted steps, all of them successful, make of the first one. The count
  is a word, and starts anew when it is full. -/
  reduced : ∃ reductions, reductions ≤ calls ∧
    session.machine.steps.toNat = reductions % 2 ^ 64 ∧
    Stmt.rewriting.after reductions (s, env) = .ok session.machine.state
  /-- Every call of `step` uses one unit of gas. -/
  stepped {fuel : Nat} {result : Except Fault Unit} {after : Session}
    (performed : session.perform fuel .step = some (.stepped result, after)) :
    session.machine.Uses after.machine 1
  /-- A step that succeeds is one reduction, and is counted. -/
  reduced_step {fuel : Nat} {after : Session}
    (performed : session.perform fuel .step = some (.stepped (.ok ()), after)) :
    session.machine.Reduces after.machine 1
  /-- A step that fails changes nothing but the gas, of which it uses one unit. -/
  failed_step {fuel : Nat} {fault : Fault} {after : Session}
    (failed : session.perform fuel .step = some (.stepped (.error fault), after)) :
    after.machine = { session.machine with gas := session.machine.gas.spend }
  /-- A run that fails keeps the state that its last successful step has reached. -/
  failed_run {fuel : Nat} {fault : Fault} {after : Session}
    (failed : session.perform fuel .run = some (.ended (.error fault), after)) :
    ∃ reductions last, session.machine.Reduces last reductions ∧
      session.machine.Uses last reductions ∧ last.step = (.error fault, after.machine) ∧
      after.machine = { last with gas := last.gas.spend }
  /-- A run that ends in order has come to rest, with one unit used for each of its steps. -/
  finished_run {fuel : Nat} {final : Environment} {after : Session}
    (ran : session.perform fuel .run = some (.ended (.ok final), after)) :
    after.machine.state = (.skip, final) ∧ ∃ reductions,
      session.machine.Reduces after.machine reductions ∧
        session.machine.Uses after.machine reductions
  /-- Copies run on their own. -/
  copied {fuel : Nat} {reply : Reply} {after : Session}
    (ran : session.perform fuel .runCopy = some (reply, after)) : after.machine = session.machine
  /-- For as long as the gas is not set, one unit is used for each call of `step`: for those that
  have reduced the statement and for those that have failed. -/
  counted {fuel : Nat} {actions : List Action} {replies : List Reply} {after : Session}
    (performed : session.performAll fuel actions = some (replies, after))
    (counting : ∀ action ∈ actions, action.setsGas = false) :
    ∃ reductions, session.machine.Reduces after.machine reductions ∧
      session.machine.Uses after.machine
        (reductions + ((actions.zip replies).map failedCalls).sum)
  /-- A run that its gas does not end comes to where one run from the start comes to without a
  limit, to the same result and after as many steps. -/
  resumed {fuel : Nat} {result : Result} {last : Session}
    (ran : session.perform fuel .run = some (.ended result, last))
    (unexhausted : isExhausted result = false) :
    ∃ enough whole, (new s env).perform enough .run = some (.ended result, whole) ∧
      last.machine.state = whole.machine.state ∧ last.machine.steps = whole.machine.steps
  /-- And with fresh gas there is such a run, if the one from the start has an end. -/
  completed {enough : Nat} {result : Result} {whole : Session}
    (uninterrupted : (new s env).perform enough .run = some (.ended result, whole)) :
    ∃ fuel last, session.performAll fuel [.refuel .unlimited, .run] =
        some ([.done, .ended result], last) ∧
      last.machine.state = whole.machine.state ∧ last.machine.steps = whole.machine.steps

/-- Whatever is done with a machine and in whatever order, steps, runs, copies that run, new limits,
new gas and new sinks, and however often its gas has run out on the way: its state and step count
are those of the reduction, and the next run that its gas does not end comes to what one run without
a limit comes to from the start. -/
theorem faithful_in_any_order {s : Stmt} {env : Environment} {actions : List Action}
    {replies : List Reply}
    (performed : (new s env).performAll fuel actions = some (replies, session)) :
    session.Faithful s env (actions.length * max 1 fuel) := by
  obtain ⟨reductions, within, reduces, _⟩ := progress_of_performAll performed
  refine ⟨⟨reductions, within, ?_, reduces.state⟩, ?_, ?_, ?_, ?_, ?_, machine_of_perform_runCopy,
    ?_, ?_, ?_⟩
  · have steps : session.machine.steps = 0 + .ofNat reductions := reduces.steps
    rw [steps, UInt64.zero_add, UInt64.toNat_ofNat']
  · intro fuel result after performed
    obtain ⟨_, stepped, same⟩ := step_of_perform performed
    obtain ⟨_, _, _, uses⟩ := progress_of_step stepped
    exact uses
  · intro fuel after performed
    obtain ⟨_, stepped, same⟩ := step_of_perform performed
    cases same
    obtain ⟨_, rfl, reduces, _⟩ := progress_of_step stepped
    exact reduces
  · intro fuel fault after failed
    obtain ⟨result, stepped, same⟩ := step_of_perform failed
    cases same
    exact (step_eq_error stepped).1
  · intro fuel fault after failed
    obtain ⟨result, ran, same⟩ := perform_run_iff.mp failed
    cases same
    obtain ⟨more, last, _, onward, uses, stops⟩ := progress_of_finish ran
    exact ⟨more, last, onward, uses, stops.2, (step_eq_error stops.2).1⟩
  · intro fuel final after ran
    obtain ⟨result, ran, same⟩ := perform_run_iff.mp ran
    cases same
    obtain ⟨more, last, _, onward, uses, stopped, rfl⟩ := progress_of_finish ran
    exact ⟨stopped, more, onward, uses⟩
  · intro fuel actions replies after performed counting
    obtain ⟨more, _, onward, uses⟩ := progress_of_performAll performed
    exact ⟨more, onward, uses counting⟩
  · intro fuel result last ran unexhausted
    exact exists_uninterrupted_of_run reduces ran unexhausted
  · intro enough result whole uninterrupted
    exact exists_run_of_uninterrupted reduces uninterrupted

/-- `x = true; x = z`, which fails where it reads `z`. -/
private def readsUnbound : Stmt :=
  .seq (.assign "x" (.literal (.boolean true))) (.assign "x" (.var "z"))

/-- Cut short by one limit and refused a single step by another, the machine still comes to the
fault of its program, in the state and after the two steps of an uninterrupted run. -/
theorem faithful_when_cut_short :
    ∃ session last enough whole,
      (new readsUnbound .empty).performAll 9
          [.traceTo .silent, .limitTo 1, .run, .limitTo 0, .step, .runCopy, .refuel .unlimited] =
        some ([.done, .done, .ended (.error (.stepLimitExceeded 1)), .done,
          .stepped (.error (.stepLimitExceeded 0)), .ended (.error (.stepLimitExceeded 0)),
          .done], session) ∧
      session.perform 9 .run = some (.ended (.error (.undefinedVariable "z")), last) ∧
      last.machine.steps = 2 ∧
      (new readsUnbound .empty).perform enough .run =
        some (.ended (.error (.undefinedVariable "z")), whole) ∧
      last.machine.state = whole.machine.state ∧ last.machine.steps = whole.machine.steps := by
  have answered : ((new readsUnbound .empty).performAll 9
        [.traceTo .silent, .limitTo 1, .run, .limitTo 0, .step, .runCopy, .refuel .unlimited]).bind
      (fun performed => (performed.2.perform 9 .run).map fun ran =>
        (performed.1, ran.1, ran.2.machine.steps)) =
      some ([.done, .done, .ended (.error (.stepLimitExceeded 1)), .done,
        .stepped (.error (.stepLimitExceeded 0)), .ended (.error (.stepLimitExceeded 0)), .done],
        .ended (.error (.undefinedVariable "z")), 2) := rfl
  simp only [Option.bind_eq_some_iff, Option.map_eq_some_iff, Prod.mk.injEq] at answered
  obtain ⟨⟨replies, session⟩, performed, ⟨reply, last⟩, ran, rfl, rfl, counted⟩ := answered
  obtain ⟨enough, whole, uninterrupted, sameState, sameSteps⟩ :=
    (faithful_in_any_order performed).resumed ran rfl
  exact ⟨session, last, enough, whole, performed, ran, counted, uninterrupted, sameState, sameSteps⟩

end Session

end Concord.Machine
