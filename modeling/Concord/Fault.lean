/-! # Faults

A fault is the reason why a run stops before its program is done. Each carries what its message
names; the wording itself is in `Fault.message` alone.
-/

namespace Concord

/-- Why a run stopped without an answer. -/
inductive Fault where
  /-- A variable was read that has no binding. -/
  | undefinedVariable (name : String)
  /-- An operator or a condition met a value of the wrong type. -/
  | typeMismatch (detail : String)
  /-- The exact result of `+` or `*` is no number of the language. -/
  | arithmeticOverflow (detail : String)
  /-- The step budget ran out first. -/
  | stepLimitExceeded (limit : UInt64)
  /-- A term that is already in normal form was asked for one more step. -/
  | irreducible (term : String)
deriving DecidableEq

/-- Ends of computations can be compared when their faults and values can. -/
instance decidableEqExcept {ε α : Type} [DecidableEq ε] [DecidableEq α] :
    DecidableEq (Except ε α)
  | .ok a, .ok b => decidable_of_iff (a = b) ⟨congrArg Except.ok, Except.ok.inj⟩
  | .error a, .error b => decidable_of_iff (a = b) ⟨congrArg Except.error, Except.error.inj⟩
  | .ok _, .error _ => isFalse nofun
  | .error _, .ok _ => isFalse nofun

/-- The message shown to a user. -/
def Fault.message : Fault → String
  | undefinedVariable name => "undefined variable: " ++ name
  | typeMismatch detail => "type mismatch: " ++ detail
  | arithmeticOverflow detail => "arithmetic overflow: " ++ detail
  | stepLimitExceeded limit =>
    "step limit exceeded after " ++ toString limit.toNat ++ " steps"
  | irreducible term => "cannot reduce normal form: " ++ term

/-- Only running out of budget is no statement about the program itself. -/
def Fault.isExhaustion : Fault → Bool
  | stepLimitExceeded _ => true
  | _ => false

theorem Fault.isExhaustion_eq_true_iff (fault : Fault) :
    fault.isExhaustion = true ↔ ∃ limit, fault = stepLimitExceeded limit := by
  cases fault <;> simp [isExhaustion]

end Concord
