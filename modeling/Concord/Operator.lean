import Concord.Value

/-! # Operators

The three binary operators. All take two numbers; `+` and `*` give the exact number or report that
there is none, and `<` gives a boolean.
-/

namespace Concord

/-- A binary operator. -/
inductive Operator where
  | add
  | multiply
  | lessThan
deriving DecidableEq

namespace Operator

def symbol : Operator → String
  | add => "+"
  | multiply => "*"
  | lessThan => "<"

/-- What the operator makes of two integers, before any bound: an integer, or a truth value. -/
def exact : Operator → Int → Int → Int ⊕ Bool
  | add, a, b => .inl (a + b)
  | multiply, a, b => .inl (a * b)
  | lessThan, a, b => .inr (decide (a < b))

/-- The operator on numbers: an exact integer that is no number of the language is an overflow. -/
def onNumbers (op : Operator) (a b : Number) : Except Fault Value :=
  match op.exact a.val b.val with
  | .inr truth => .ok (.boolean truth)
  | .inl n =>
    match Number.ofInt? n with
    | some result => .ok (.number result)
    | none => .error (.arithmeticOverflow (a.text ++ " " ++ op.symbol ++ " " ++ b.text))

/-- The operator on values: anything but two numbers is a type mismatch. -/
def apply (op : Operator) : Value → Value → Except Fault Value
  | .number a, .number b => op.onNumbers a b
  | left, right => .error (.typeMismatch
      ("cannot apply '" ++ op.symbol ++ "' to " ++ left.typeName ++ " and " ++ right.typeName))

end Operator

end Concord
