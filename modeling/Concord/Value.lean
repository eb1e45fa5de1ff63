import Concord.Fault
import Concord.Number

/-! # Values

What an expression evaluates to and a variable holds: a number or a boolean. The two never mix: a
number is not a condition, and a boolean is not an operand of arithmetic.
-/

namespace Concord

/-- A value of the language. -/
inductive Value where
  | number (n : Number)
  | boolean (b : Bool)
deriving DecidableEq

namespace Value

def typeName : Value → String
  | number _ => "number"
  | boolean _ => "boolean"

def text : Value → String
  | number n => n.text
  | boolean true => "true"
  | boolean false => "false"

/-- Branches and loops are decided by booleans only. -/
def asCondition : Value → Except Fault Bool
  | boolean b => .ok b
  | number n => .error (.typeMismatch ("condition must be boolean, got number " ++ n.text))

theorem asCondition_eq_ok_iff (value : Value) (b : Bool) :
    value.asCondition = .ok b ↔ value = .boolean b := by
  cases value <;> simp [asCondition]

end Value

end Concord
