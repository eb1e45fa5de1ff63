/-! # Numbers

The numbers of the language are the integers that a signed 64-bit word holds. Arithmetic is done
exactly on `Int`; `Number.ofInt?` says whether the exact result is a number again.
-/

namespace Concord

/-- An integer fits when it lies between `-2 ^ 63` and `2 ^ 63 - 1`. -/
def FitsWord (n : Int) : Prop :=
  -9223372036854775808 ≤ n ∧ n ≤ 9223372036854775807

instance (n : Int) : Decidable (FitsWord n) :=
  inferInstanceAs (Decidable (_ ∧ _))

/-- A number of the language. -/
structure Number where
  /-- The integer it stands for. -/
  val : Int
  fits : FitsWord val
deriving DecidableEq

namespace Number

@[ext] theorem ext {a b : Number} (same : a.val = b.val) : a = b := by
  cases a; cases b; cases same; rfl

/-- The number that stands for an integer, if there is one. -/
def ofInt? (n : Int) : Option Number :=
  if fits : FitsWord n then some ⟨n, fits⟩ else none

theorem ofInt?_eq_some_iff (n : Int) (a : Number) : ofInt? n = some a ↔ n = a.val := by
  unfold ofInt?
  split
  · simp [Number.ext_iff]
  · next misfit =>
    simp only [reduceCtorEq, false_iff]
    rintro rfl
    exact misfit a.fits

@[simp] theorem ofInt?_val (a : Number) : ofInt? a.val = some a :=
  (ofInt?_eq_some_iff a.val a).mpr rfl

/-- Decimal digits, with a minus sign in front of a negative number. -/
def text (a : Number) : String := toString a.val

end Number

end Concord
