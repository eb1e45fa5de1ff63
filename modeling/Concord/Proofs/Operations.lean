import Concord.Proofs.Lockstep
import Concord.Proofs.Simulation

/-! # A step for each operation

An expression has as many steps before it as it has operations, the nodes that are not literals.
Each step takes one operation away and leaves the value of the expression, or its fault, as it was.
So the reduction of an expression comes to its value after exactly that many steps, or fails with
its fault before them, and the meaning of the expression gives the same value and the same fault.
-/

namespace Concord.Expr

open Rewriting

variable {env : Environment}

theorem operations_eq_zero_iff (e : Expr) : e.operations = 0 ↔ ∃ value, e = literal value := by
  cases e <;> simp [operations]

/-- A step takes one operation away. -/
theorem operations_of_reduce {e next : Expr} (stepped : e.reduce env = .ok next) :
    next.operations + 1 = e.operations := by
  induction e generalizing next with
  | literal value => cases stepped
  | var name =>
    obtain ⟨value, _, rfl⟩ := map_eq_ok_iff.mp stepped
    rfl
  | binary op left right ihLeft ihRight =>
    obtain ⟨reduct, reduced, rfl⟩ | ⟨a, reduct, rfl, reduced, rfl⟩ | ⟨a, b, v, rfl, rfl, _, rfl⟩ :=
      reduce_binary_cases stepped
    · have fewer := ihLeft reduced
      simp only [operations]
      omega
    · have fewer := ihRight reduced
      simp only [operations]
      omega
    · rfl

/-- So many steps take so many operations away, and change nothing about what is evaluated. -/
theorem kept_of_after {e last : Expr} {steps : Nat}
    (reached : (rewriting env).after steps e = .ok last) :
    last.operations + steps = e.operations ∧ last.eval env = e.eval env := by
  induction steps generalizing e with
  | zero =>
    cases reached
    exact ⟨rfl, rfl⟩
  | succ steps ih =>
    obtain ⟨next, stepped, onward⟩ := after_succ_eq_ok_iff.mp reached
    obtain ⟨counted, same⟩ := ih onward
    have fewer : next.operations + 1 = e.operations := operations_of_reduce stepped
    exact ⟨by omega, same.trans (eval_of_reduce stepped)⟩

/-- Reduction comes to a literal after as many steps as there are operations, and it is the literal
of the value. -/
theorem after_eq_literal_iff {e : Expr} {steps : Nat} {value : Value} :
    (rewriting env).after steps e = .ok (literal value) ↔
      steps = e.operations ∧ e.eval env = .ok value := by
  constructor
  · intro reached
    obtain ⟨counted, same⟩ := kept_of_after reached
    exact ⟨by simpa [operations] using counted, same.symm⟩
  · rintro ⟨rfl, evaluated⟩
    obtain ⟨last, reached, stopped⟩ := ends_value evaluated
    obtain rfl := (asValue?_eq_some_iff last value).mp (stop?_eq_ok_iff.mp stopped)
    exact reached

/-- Before as many steps as there are operations, reduction fails with the fault of evaluation. -/
theorem exists_stuck_iff {e : Expr} {fault : Fault} :
    (∃ steps last, steps < e.operations ∧ (rewriting env).after steps e = .ok last ∧
      last.reduce env = .error fault) ↔ e.eval env = .error fault := by
  constructor
  · rintro ⟨steps, last, fewer, reached, failed⟩
    obtain ⟨counted, same⟩ := kept_of_after reached
    have reducible : last.isReducible = true := by
      cases normal : last.isReducible with
      | true => rfl
      | false =>
        have done := (isReducible_eq_false_iff last).mp normal
        have nothing_left : last.operations = 0 := (operations_eq_zero_iff last).mpr done
        omega
    exact same.symm.trans (eval_of_reduce_fault reducible failed)
  · intro evaluated
    obtain ⟨steps, fewer, last, reached, stopped⟩ := ends_fault evaluated
    exact ⟨steps, last, fewer, reached, (stop?_eq_error_iff.mp stopped).2⟩

/-- Reduction, evaluation and meaning agree on every expression. A step takes away one of its
operations and leaves what it evaluates to. Reduction comes to a literal when the expression has a
value, after exactly as many steps as there are operations, and it fails before them when evaluation
does, with the same fault. The meaning gives what evaluation gives. -/
theorem one_step_per_operation (e : Expr) (env : Environment) :
    (∀ next, e.reduce env = .ok next →
      next.operations + 1 = e.operations ∧ next.eval env = e.eval env) ∧
    (∀ steps value, (rewriting env).after steps e = .ok (literal value) ↔
      steps = e.operations ∧ e.eval env = .ok value) ∧
    (∀ fault, (∃ steps last, steps < e.operations ∧ (rewriting env).after steps e = .ok last ∧
      last.reduce env = .error fault) ↔ e.eval env = .error fault) ∧
    e.meaning.apply env = e.eval env := by
  refine ⟨?_, fun _ _ => after_eq_literal_iff, fun _ => exists_stuck_iff, apply_meaning e env⟩
  intro next stepped
  exact ⟨operations_of_reduce stepped, eval_of_reduce stepped⟩

private theorem operand_fits : FitsWord 1 := by decide

private def comparison : Expr :=
  lessThan (add (var "x") (ofInt 1 operand_fits)) (literal (.boolean true))

private def xBound : Environment := .ofList [("x", .number ⟨1, operand_fits⟩)]

/-- The first of three steps looks up `x`, and the sum is still made before the comparison fails. -/
theorem one_step_per_operation_mismatch :
    (∃ next, comparison.reduce xBound = .ok next ∧ next.operations + 1 = comparison.operations ∧
      next.eval xBound = comparison.eval xBound) ∧
    comparison.operations = 3 ∧
    ∃ steps last, steps < comparison.operations ∧
      (rewriting xBound).after steps comparison = .ok last ∧
      last.reduce xBound =
        .error (.typeMismatch "cannot apply '<' to number and boolean") := by
  obtain ⟨oneStep, _, stuck, _⟩ := one_step_per_operation comparison xBound
  have lookedUp : comparison.reduce xBound = .ok (lessThan
      (add (literal (.number ⟨1, operand_fits⟩)) (ofInt 1 operand_fits))
      (literal (.boolean true))) := rfl
  have fails : comparison.eval xBound =
      .error (.typeMismatch "cannot apply '<' to number and boolean") := by decide
  exact ⟨⟨_, lookedUp, oneStep _ lookedUp⟩, rfl, (stuck _).mpr fails⟩

end Concord.Expr
