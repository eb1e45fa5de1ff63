import Concord.Machine.Basic
import Concord.Proofs.Budget
import Concord.Proofs.Simulation

/-! # Runs of the machine

What one step of a machine does, in each of the ways in which it can go, and from it what a run
comes to: the reduction of its statement, paid for by one unit of gas for each step, the failing
step included. Sink, trace and step count have no part in the result.
-/

namespace Concord.Machine

open Rewriting

def state (machine : Machine) : Stmt × Environment := (machine.statement, machine.environment)

/-- The machine after a successful step to the given state. -/
def advance (machine : Machine) (next : Stmt × Environment) : Machine :=
  { machine with
    statement := next.1
    environment := next.2
    gas := machine.gas.spend
    steps := machine.steps + 1 }

@[simp] theorem state_advance (machine : Machine) (next : Stmt × Environment) :
    (machine.advance next).state = next := rfl

variable {machine : Machine}

/-- A step that is refused its gas changes nothing but the counter. -/
theorem step_of_refused {fault : Fault} (refused : machine.gas.spend.check = .error fault) :
    machine.step = (.error fault, { machine with gas := machine.gas.spend }) := by
  simp only [step, Gas.tick, refused]

/-- A step that fails in the reduction changes nothing but the counter. -/
theorem step_of_fault {fault : Fault} (granted : machine.gas.spend.check = .ok ())
    (failed : Stmt.rewriting.step machine.state = .error fault) :
    machine.step = (.error fault, { machine with gas := machine.gas.spend }) := by
  change machine.statement.reduce machine.environment = .error fault at failed
  simp only [step, Gas.tick, granted, failed]

theorem step_of_ok {next : Stmt × Environment} (granted : machine.gas.spend.check = .ok ())
    (stepped : Stmt.rewriting.step machine.state = .ok next) :
    machine.step = (.ok (), machine.advance next) := by
  change machine.statement.reduce machine.environment = .ok next at stepped
  simp only [step, Gas.tick, granted, stepped]
  rfl

theorem finish_of_normal (normal : machine.statement.isReducible = false) (fuel : Nat)
    (trace : Trace) :
    finish (fuel + 1) machine trace =
      some (.ok machine.environment, machine, trace.report (.machineHalted machine.steps)) := by
  simp [finish, normal]

/-- A failing step ends a run, which leaves no line for it. -/
theorem finish_of_error {fault : Fault} {left : Machine}
    (reducible : machine.statement.isReducible = true)
    (failed : machine.step = (.error fault, left)) (fuel : Nat) (trace : Trace) :
    finish (fuel + 1) machine trace = some (.error fault, left, trace) := by
  simp [finish, reducible, tracedStep, failed]

theorem finish_of_ok {next : Machine} (reducible : machine.statement.isReducible = true)
    (stepped : machine.step = (.ok (), next)) (fuel : Nat) (trace : Trace) :
    finish (fuel + 1) machine trace =
      finish fuel next (next.emit (trace.report next.reached)) := by
  simp [finish, reducible, tracedStep, stepped]

/-- More fuel does not change how a run ends. -/
theorem finish_of_more_fuel {fuel more : Nat} (order : fuel ≤ more) {trace : Trace}
    {ended : Result × Machine × Trace} (ran : finish fuel machine trace = some ended) :
    finish more machine trace = some ended := by
  induction fuel generalizing more machine trace with
  | zero => cases ran
  | succ fuel ih =>
    obtain ⟨more, rfl⟩ : ∃ rest, more = rest + 1 := ⟨more - 1, by omega⟩
    by_cases reducible : machine.statement.isReducible = true
    · rcases stepped : machine.step with ⟨fault | _, next⟩
      · rw [finish_of_error reducible stepped] at ran ⊢
        exact ran
      · rw [finish_of_ok reducible stepped] at ran ⊢
        exact ih (by omega) ran
    · rw [finish_of_normal (by simpa using reducible)] at ran ⊢
      exact ran

theorem isReducible_of_value_eq_none
    (unfinished : Stmt.rewriting.value? machine.state = none) :
    machine.statement.isReducible = true := by
  simpa [Stmt.rewriting, state] using unfinished

/-- The units that a run pays for: one for each step, a failing last step included. -/
def unitsFor (steps : Nat) : Result → Nat
  | .ok _ => steps
  | .error _ => steps + 1

/-- What a run shows of its end: the result and the gas. -/
def shown (ended : Result × Machine × Trace) : Result × Gas := (ended.1, ended.2.1.gas)

/-- With the fuel for it, a run comes to the end of the reduction, as far as gas allows. -/
theorem finish_pays {steps : Nat} {result : Result}
    (ended : Stmt.rewriting.Ends machine.state steps result) {fuel : Nat} (enough : steps < fuel)
    (trace : Trace) :
    (finish fuel machine trace).map shown =
      machine.gas.pay (unitsFor steps result) (some result) := by
  obtain ⟨fuel, rfl⟩ : ∃ rest, fuel = rest + 1 := ⟨fuel - 1, by omega⟩
  induction steps generalizing machine fuel trace with
  | zero =>
    have stopped := ends_zero_iff.mp ended
    cases result with
    | ok final =>
      have normal := Stmt.eq_skip_of_value (stop?_eq_ok_iff.mp stopped)
      obtain ⟨isSkip, rfl⟩ := Prod.mk.inj normal
      rw [finish_of_normal ((Stmt.isReducible_eq_false_iff _).mpr isSkip)]
      rfl
    | error fault =>
      obtain ⟨normal, failed⟩ := stop?_eq_error_iff.mp stopped
      have reducible := isReducible_of_value_eq_none normal
      cases granted : machine.gas.spend.check with
      | error refusal =>
        rw [finish_of_error reducible (step_of_refused granted), unitsFor,
          Gas.pay_succ_of_error granted]
        rfl
      | ok =>
        rw [finish_of_error reducible (step_of_fault granted failed), unitsFor,
          Gas.pay_succ_of_ok granted]
        rfl
  | succ steps ih =>
    obtain ⟨next, stepped, onward⟩ := ends_succ_iff.mp ended
    have reducible : machine.statement.isReducible = true := Stmt.isReducible_of_reduce stepped
    have units : unitsFor (steps + 1) result = unitsFor steps result + 1 := by
      cases result <;> rfl
    rw [units]
    cases granted : machine.gas.spend.check with
    | error refusal =>
      rw [finish_of_error reducible (step_of_refused granted), Gas.pay_succ_of_error granted]
      rfl
    | ok =>
      obtain ⟨fuel, rfl⟩ : ∃ rest, fuel = rest + 1 := ⟨fuel - 1, by omega⟩
      have onward : Stmt.rewriting.Ends (machine.advance next).state steps result := onward
      rw [finish_of_ok reducible (step_of_ok granted stepped), Gas.pay_succ_of_ok granted]
      exact ih onward _ fuel (by omega)

/-- A run that makes all the steps it has fuel for wants for fuel, unless gas runs out first. -/
theorem finish_starves {fuel : Nat} {last : Stmt × Environment}
    (reached : Stmt.rewriting.after fuel machine.state = .ok last) (trace : Trace) :
    (finish fuel machine trace).map shown = machine.gas.pay fuel none := by
  induction fuel generalizing machine trace with
  | zero => rfl
  | succ fuel ih =>
    obtain ⟨next, stepped, onward⟩ := after_succ_eq_ok_iff.mp reached
    have reducible : machine.statement.isReducible = true := Stmt.isReducible_of_reduce stepped
    cases granted : machine.gas.spend.check with
    | error refusal =>
      rw [finish_of_error reducible (step_of_refused granted), Gas.pay_succ_of_error granted]
      rfl
    | ok =>
      have onward : Stmt.rewriting.after fuel (machine.advance next).state = .ok last := onward
      rw [finish_of_ok reducible (step_of_ok granted stepped), Gas.pay_succ_of_ok granted]
      exact ih onward _

/-- What a run shows of its end is decided by state and gas: sink, trace and step count have no part
in it. -/
theorem run_shown_eq (machine other : Machine) (sameState : machine.state = other.state)
    (sameGas : machine.gas = other.gas) (fuel : Nat) (trace otherTrace : Trace) :
    (run fuel machine trace).map shown = (run fuel other otherTrace).map shown := by
  unfold run
  obtain ⟨steps, enough, result, ended⟩ | ⟨last, reached⟩ :=
    Stmt.rewriting.ends_or_after fuel machine.state
  · have otherEnded := ended
    rw [sameState] at otherEnded
    rw [finish_pays ended enough, finish_pays otherEnded enough, sameGas]
  · have otherReached := reached
    rw [sameState] at otherReached
    rw [finish_starves reached, finish_starves otherReached, sameGas]

end Concord.Machine
