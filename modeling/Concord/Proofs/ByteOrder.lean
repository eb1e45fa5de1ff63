import Mathlib.Data.String.Basic
import Mathlib.Tactic.SplitIfs

/-! # Byte order of texts

Texts are compared code point by code point. That is the order of their UTF-8 bytes as well,
`utf8Bytes_lt_iff`: the first byte of a code point says how many there are and is the greater the
more there are, and equally many bytes hold the digits of the code point, the highest first.
-/

namespace Concord

def utf8Bytes (text : String) : List UInt8 := text.toUTF8.data.toList

theorem utf8Bytes_eq_flatMap (text : String) :
    utf8Bytes text = text.toList.flatMap String.utf8EncodeChar := by
  rw [utf8Bytes, String.toUTF8_eq_toByteArray, ← String.utf8Encode_toList, List.utf8Encode,
    List.data_toByteArray]

private theorem toNat_val_lt (c : Char) : c.val.toNat < 0x110000 := by
  obtain small | ⟨_, small⟩ := c.valid
  · exact Nat.lt_trans small (by decide)
  · exact small

/-- A smaller character has the smaller bytes, whatever comes after it. -/
theorem utf8EncodeChar_append_lt {c d : Char} (less : c < d) (rest others : List UInt8) :
    String.utf8EncodeChar c ++ rest < String.utf8EncodeChar d ++ others := by
  have less : c.val.toNat < d.val.toNat := less
  have bound := toNat_val_lt d
  rw [String.utf8EncodeChar, String.utf8EncodeChar]
  generalize c.val.toNat = m at less
  generalize d.val.toNat = n at less bound
  have onward (k : Nat) : (k % 64 + 128) % 256 = k % 64 + 128 := by omega
  have lead (k : Nat) (small : k < 0x110000) :
      (k / 262144 % 8 + 240) % 256 = k / 262144 + 240 := by omega
  have leadM := lead m (Nat.lt_trans less bound)
  have leadN := lead n bound
  split_ifs
  all_goals
    simp only [List.cons_append, List.nil_append, List.cons_lt_cons_iff, UInt8.lt_iff_toNat_lt,
      ← UInt8.toNat_inj, UInt8.toNat_ofNat', onward, leadM, leadN]
    omega

theorem flatMap_utf8EncodeChar_lt {chars others : List Char} (less : chars < others) :
    chars.flatMap String.utf8EncodeChar < others.flatMap String.utf8EncodeChar := by
  induction chars generalizing others with
  | nil =>
    cases others with
    | nil => exact absurd less (List.lt_irrefl [])
    | cons d others =>
      cases encoded : (d :: others).flatMap String.utf8EncodeChar with
      | nil =>
        obtain ⟨empty, _⟩ := List.append_eq_nil_iff.mp (List.flatMap_cons.symm.trans encoded)
        exact absurd empty String.utf8EncodeChar_ne_nil
      | cons byte bytes => exact List.nil_lt_cons byte bytes
  | cons c chars ih =>
    cases others with
    | nil => exact absurd less (List.not_lt_nil _)
    | cons d others =>
      rw [List.flatMap_cons, List.flatMap_cons]
      obtain first | ⟨rfl, later⟩ := List.cons_lt_cons_iff.mp less
      · exact utf8EncodeChar_append_lt first _ _
      · exact List.append_left_lt (ih later)

/-- The order of texts is the order of their bytes. -/
theorem utf8Bytes_lt_iff (text other : String) : utf8Bytes text < utf8Bytes other ↔ text < other := by
  have forward {text other : String} (less : text < other) : utf8Bytes text < utf8Bytes other := by
    rw [utf8Bytes_eq_flatMap, utf8Bytes_eq_flatMap]
    exact flatMap_utf8EncodeChar_lt (String.lt_iff_toList_lt.mp less)
  refine ⟨fun less => ?_, forward⟩
  refine Decidable.byContradiction fun notLess => ?_
  obtain same | more := (String.not_lt.mp notLess).eq_or_lt
  · subst same
    exact List.lt_irrefl _ less
  · exact List.lt_asymm less (forward more)

end Concord
