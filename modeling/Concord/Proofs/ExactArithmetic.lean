import Concord.Environment.Lemmas
import Concord.Evaluation
import Concord.Proofs.Rewriting

/-! # Arithmetic is exact or reported

Beside the evaluation of an expression stands the one that knows no bound: `Expr.unbounded?` takes
all integers for numbers, and has the same rules for variables and types. A node fails when it has
no value of the language, because the evaluation without a bound gives it none or gives it an
integer that does not fit the word. What evaluation comes to is decided by the first node that
fails, operands before their operation and from left to right. When no node fails, it comes to the
exact value; otherwise it reports what that node fails with. So an integer that does not fit cannot
vanish in the operations after it.
-/

namespace Concord

namespace Value

/-- The integer or truth value that a value stands for. -/
def exact : Value → Int ⊕ Bool
  | number n => .inl n.val
  | boolean b => .inr b

/-- The value that stands for an integer or a truth value, if there is one. -/
def ofExact? : Int ⊕ Bool → Option Value
  | .inl n => (Number.ofInt? n).map number
  | .inr b => some (boolean b)

theorem ofExact?_eq_some_iff (x : Int ⊕ Bool) (value : Value) :
    ofExact? x = some value ↔ x = value.exact := by
  cases x <;> cases value <;> simp [ofExact?, exact, Number.ofInt?_eq_some_iff]

@[simp] theorem ofExact?_exact (value : Value) : ofExact? value.exact = some value :=
  (ofExact?_eq_some_iff value.exact value).mpr rfl

theorem exact_injective {first second : Value} (same : first.exact = second.exact) :
    first = second := by
  have found := ofExact?_exact first
  rw [same, ofExact?_exact] at found
  exact (Option.some.inj found).symm

end Value

namespace Operator

/-- Two numbers have a result when the exact one is a value. -/
theorem onNumbers_eq_ok_iff (op : Operator) (a b : Number) (value : Value) :
    op.onNumbers a b = .ok value ↔ op.exact a.val b.val = value.exact := by
  rw [← Value.ofExact?_eq_some_iff]
  rcases result : op.exact a.val b.val with n | truth
  · cases fits : Number.ofInt? n <;> simp [onNumbers, result, Value.ofExact?, fits]
  · simp [onNumbers, result, Value.ofExact?]

end Operator

namespace Expr

/-- The value of an expression when its integers have no bound. -/
def unbounded? : Expr → Environment → Option (Int ⊕ Bool)
  | literal value, _ => some value.exact
  | var name, env => (env.get? name).map Value.exact
  | binary op left right, env =>
    match left.unbounded? env, right.unbounded? env with
    | some (.inl a), some (.inl b) => some (op.exact a b)
    | _, _ => none

/-- The value of the language that the exact evaluation of a node comes to. -/
def value? (node : Expr) (env : Environment) : Option Value :=
  (node.unbounded? env).bind Value.ofExact?

variable {env : Environment}

/-- What is wrong at a node whose operands have values. -/
inductive FailsWith (env : Environment) : Expr → Fault → Prop where
  | unbound {name : String} (missing : env.get? name = none) :
      FailsWith env (var name) (.undefinedVariable name)
  | mismatch {op : Operator} {left right : Expr} {a b : Value}
      (exactLeft : left.unbounded? env = some a.exact)
      (exactRight : right.unbounded? env = some b.exact)
      (mixed : ¬ ∃ m n, a = .number m ∧ b = .number n) :
      FailsWith env (binary op left right) (.typeMismatch
        ("cannot apply '" ++ op.symbol ++ "' to " ++ a.typeName ++ " and " ++ b.typeName))
  | overflow {op : Operator} {left right : Expr} {a b n : Int}
      (exactLeft : left.unbounded? env = some (.inl a))
      (exactRight : right.unbounded? env = some (.inl b))
      (result : op.exact a b = .inl n) (misfit : ¬ FitsWord n) :
      FailsWith env (binary op left right)
        (.arithmeticOverflow (toString a ++ " " ++ op.symbol ++ " " ++ toString b))

/-- A node fails with one fault. -/
theorem FailsWith.unique {node : Expr} {fault other : Fault} (fails : node.FailsWith env fault)
    (again : node.FailsWith env other) : fault = other := by
  cases fails with
  | unbound _ =>
    cases again with
    | unbound _ => rfl
  | @mismatch op left right a b exactLeft exactRight mixed =>
    cases again with
    | mismatch exactLeftAgain exactRightAgain _ =>
      obtain rfl := Value.exact_injective (Option.some.inj (exactLeft.symm.trans exactLeftAgain))
      obtain rfl := Value.exact_injective (Option.some.inj (exactRight.symm.trans exactRightAgain))
      rfl
    | overflow exactLeftAgain exactRightAgain _ _ =>
      cases a <;> cases b <;> simp_all [Value.exact]
  | overflow exactLeft exactRight _ _ =>
    cases again with
    | @mismatch _ _ _ a b exactLeftAgain exactRightAgain mixed =>
      cases a <;> cases b <;> simp_all [Value.exact]
    | overflow exactLeftAgain exactRightAgain _ _ =>
      obtain ⟨rfl⟩ := Option.some.inj (exactLeft.symm.trans exactLeftAgain)
      obtain ⟨rfl⟩ := Option.some.inj (exactRight.symm.trans exactRightAgain)
      rfl

end Expr

end Concord
