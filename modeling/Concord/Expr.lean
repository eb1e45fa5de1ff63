import Concord.Operator

/-! # Expressions

Expressions read the environment and never change it. A literal is the only normal form; every
other expression can take a step. Rendering writes no parentheses, so the text shows the operators
in reading order and not how they are nested.
-/

namespace Concord

/-- An expression. -/
inductive Expr where
  | literal (value : Value)
  | var (name : String)
  | binary (op : Operator) (left right : Expr)
deriving DecidableEq

namespace Expr

/-- Whether the expression can still take a step. -/
def isReducible : Expr → Bool
  | literal _ => false
  | _ => true

/-- The value of an expression in normal form. -/
def asValue? : Expr → Option Value
  | literal value => some value
  | _ => none

def text : Expr → String
  | literal value => value.text
  | var name => name
  | binary op left right => left.text ++ " " ++ op.symbol ++ " " ++ right.text

theorem isReducible_eq_false_iff (e : Expr) :
    e.isReducible = false ↔ ∃ value, e = literal value := by
  cases e <;> simp [isReducible]

/-- The literal of an integer that is visibly a number. -/
abbrev ofInt (n : Int) (fits : FitsWord n := by decide) : Expr :=
  literal (.number ⟨n, fits⟩)

abbrev add : Expr → Expr → Expr := binary .add

abbrev multiply : Expr → Expr → Expr := binary .multiply

abbrev lessThan : Expr → Expr → Expr := binary .lessThan

end Expr

end Concord
