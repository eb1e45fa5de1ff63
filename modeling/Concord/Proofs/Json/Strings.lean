import Concord.Json.Quoted
import Concord.Proofs.Json.Grammar

/-! # Reading strings

What is read between two quotes is what the grammar says: `readBody?_eq_some_iff`. Each character is
spelled by as many characters as it takes, and which ones is known without looking at what follows,
so reading and spelling go side by side, one character at a time.
-/

namespace Concord.Json

open Grammar Language

namespace Grammar

theorem mem_unitEscape {chars : List Char} {unit : Nat} :
    chars ∈ unitEscape unit ↔ ∃ a b c d,
      [a] ∈ hexDigit (unit / 4096) ∧ [b] ∈ hexDigit (unit / 256 % 16) ∧
      [c] ∈ hexDigit (unit / 16 % 16) ∧ [d] ∈ hexDigit (unit % 16) ∧
      chars = ['\\', 'u', a, b, c, d] := by
  have single {n : Nat} {chars : List Char} (digit : chars ∈ hexDigit n) : ∃ c, chars = [c] := by
    rcases digit with rfl | rfl <;> exact ⟨_, rfl⟩
  simp only [unitEscape, mem_mul, mem_just]
  constructor
  · rintro ⟨_, ⟨_, ⟨_, ⟨_, rfl, _, first, rfl⟩, _, second, rfl⟩, _, third, rfl⟩, _, fourth, rfl⟩
    obtain ⟨a, rfl⟩ := single first
    obtain ⟨b, rfl⟩ := single second
    obtain ⟨c, rfl⟩ := single third
    obtain ⟨d, rfl⟩ := single fourth
    exact ⟨a, b, c, d, first, second, third, fourth, rfl⟩
  · rintro ⟨a, b, c, d, first, second, third, fourth, rfl⟩
    exact ⟨_, ⟨_, ⟨_, ⟨_, rfl, _, first, rfl⟩, _, second, rfl⟩, _, third, rfl⟩, _, fourth, rfl⟩

theorem exists_of_mem_unitEscape {chars : List Char} {unit : Nat}
    (written : chars ∈ unitEscape unit) : ∃ a b c d, chars = ['\\', 'u', a, b, c, d] := by
  obtain ⟨a, b, c, d, _, _, _, _, rfl⟩ := mem_unitEscape.mp written
  exact ⟨a, b, c, d, rfl⟩

/-- By its units, a character is written as one escape or as two. -/
theorem mem_units_iff {c : Char} {chars : List Char} :
    chars ∈ ((units c).map unitEscape).prod ↔
      c.toNat < 0x10000 ∧ chars ∈ unitEscape c.toNat ∨
      0x10000 ≤ c.toNat ∧ ∃ high low, high ∈ unitEscape (0xD800 + (c.toNat - 0x10000) / 0x400) ∧
        low ∈ unitEscape (0xDC00 + (c.toNat - 0x10000) % 0x400) ∧ chars = high ++ low := by
  unfold units
  split_ifs with small
  · simp [small, Nat.not_le.mpr small]
  · simp [small, Nat.not_lt.mp small, mem_mul, eq_comm]

end Grammar

namespace Quoted

private theorem toNat_digitChar :
    ∀ n < 16, n.digitChar.toNat = if n < 10 then 48 + n else 87 + n := by decide

private theorem toNat_toUpper_digitChar :
    ∀ n < 16, n.digitChar.toUpper.toNat = if n < 10 then 48 + n else 55 + n := by decide

private theorem le_iff_toNat (a b : Char) : a ≤ b ↔ a.toNat ≤ b.toNat := Iff.rfl

/-- A digit is read as what it stands for, in either case. -/
theorem hexValue?_eq_some_iff {c : Char} {n : Nat} :
    hexValue? c = some n ↔ n < 16 ∧ [c] ∈ hexDigit n := by
  simp only [mem_hexDigit, List.cons.injEq, and_true]
  simp only [hexValue?, le_iff_toNat, Char.reduceToNat]
  constructor
  · intro read
    have bound : n < 16 := by split_ifs at read <;> simp only [Option.some.injEq] at read <;> omega
    have lower := toNat_digitChar n bound
    have upper := toNat_toUpper_digitChar n bound
    refine ⟨bound, ?_⟩
    simp only [← Char.toNat_inj, lower, upper]
    split_ifs at read <;> simp only [Option.some.injEq] at read <;> split_ifs <;> omega
  · rintro ⟨bound, digit⟩
    have lower := toNat_digitChar n bound
    have upper := toNat_toUpper_digitChar n bound
    have code : c.toNat = 48 + n ∧ n < 10 ∨ c.toNat = 87 + n ∧ 10 ≤ n ∨
        c.toNat = 55 + n ∧ 10 ≤ n := by
      rcases digit with rfl | rfl <;> simp only [lower, upper] <;> split_ifs <;> omega
    obtain ⟨code, _⟩ | ⟨code, _⟩ | ⟨code, _⟩ := code
    · rw [if_pos (by omega), code, Nat.add_sub_cancel_left]
    · rw [if_neg (by omega), if_pos (by omega), Option.some.injEq]
      omega
    · rw [if_neg (by omega), if_neg (by omega), if_pos (by omega), Option.some.injEq]
      omega

/-- Four digits are read as the unit that they are the digits of. -/
theorem unit?_eq_some_iff {a b c d : Char} {unit : Nat} :
    unit? a b c d = some unit ↔ unit < 0x10000 ∧ ['\\', 'u', a, b, c, d] ∈ unitEscape unit := by
  rw [mem_unitEscape]
  simp only [unit?, bind, Option.bind_eq_some_iff, pure, Option.some.injEq, hexValue?_eq_some_iff]
  constructor
  · rintro ⟨w, ⟨_, first⟩, x, ⟨_, second⟩, y, ⟨_, third⟩, z, ⟨_, fourth⟩, rfl⟩
    refine ⟨by omega, a, b, c, d, ?_, ?_, ?_, ?_, rfl⟩
    · rwa [show (((w * 16 + x) * 16 + y) * 16 + z) / 4096 = w by omega]
    · rwa [show (((w * 16 + x) * 16 + y) * 16 + z) / 256 % 16 = x by omega]
    · rwa [show (((w * 16 + x) * 16 + y) * 16 + z) / 16 % 16 = y by omega]
    · rwa [show (((w * 16 + x) * 16 + y) * 16 + z) % 16 = z by omega]
  · rintro ⟨bound, _, _, _, _, first, second, third, fourth, same⟩
    cases same
    exact ⟨unit / 4096, ⟨by omega, first⟩, unit / 256 % 16, ⟨by omega, second⟩, unit / 16 % 16,
      ⟨by omega, third⟩, unit % 16, ⟨by omega, fourth⟩, by omega⟩

/-- A character that is no control character, quote or backslash is read as itself. -/
theorem readChar?_of_unescaped {c : Char} {chars : List Char} (written : chars ∈ unescaped c)
    (left : List Char) : readChar? (chars ++ left) = some (c, left) := by
  obtain ⟨rfl, noQuote, noBackslash, printable⟩ := written
  rw [List.singleton_append, readChar?, if_neg noBackslash, if_neg]
  rintro (quote | control)
  · exact noQuote quote
  · omega

theorem readChar?_of_letterEscape {c : Char} {chars : List Char} (written : chars ∈ letterEscape c)
    (left : List Char) : readChar? (chars ++ left) = some (c, left) := by
  obtain ⟨letter, listed, rfl⟩ := written
  simp only [letters, List.mem_cons, Prod.mk.injEq, List.not_mem_nil, or_false] at listed
  rcases listed with ⟨rfl, rfl⟩ | ⟨rfl, rfl⟩ | ⟨rfl, rfl⟩ | ⟨rfl, rfl⟩ | ⟨rfl, rfl⟩ | ⟨rfl, rfl⟩ |
    ⟨rfl, rfl⟩ | ⟨rfl, rfl⟩ <;> rfl

/-- No character is half of a surrogate pair. -/
private theorem toNat_valid (c : Char) :
    c.toNat < 0xD800 ∨ 0xDFFF < c.toNat ∧ c.toNat < 0x110000 := c.valid

private theorem ofNat_eq_iff {n : Nat} {c : Char}
    (valid : n < 0xD800 ∨ 0xDFFF < n ∧ n < 0x110000) : Char.ofNat n = c ↔ n = c.toNat := by
  have code : (Char.ofNat n).toNat = n := by
    unfold Char.ofNat
    rw [dif_pos valid]
    rfl
  rw [← Char.toNat_inj, code]

/-- Two surrogates are read as the character whose units they are. -/
private theorem ofSurrogates?_eq_some_iff {high low : Nat} {c : Char}
    (isHigh : 0xD800 ≤ high ∧ high < 0xDC00) :
    ofSurrogates? high low = some c ↔ 0x10000 ≤ c.toNat ∧
      high = 0xD800 + (c.toNat - 0x10000) / 0x400 ∧ low = 0xDC00 + (c.toNat - 0x10000) % 0x400 := by
  have valid := toNat_valid c
  unfold ofSurrogates?
  split_ifs with isLow
  · rw [Option.some.injEq, ofNat_eq_iff (by omega)]
    omega
  · simp only [false_iff]
    omega

private theorem readChar?_backslash (rest : List Char) :
    readChar? ('\\' :: rest) = readEscape? rest := by
  rw [readChar?, if_pos rfl]

private theorem readEscape?_unit {x y z w : Char} {unit : Nat} (left : List Char)
    (read : unit? x y z w = some unit) (single : unit < 0xD800 ∨ 0xE000 ≤ unit) :
    readEscape? ('u' :: x :: y :: z :: w :: left) = some (Char.ofNat unit, left) := by
  simp only [readEscape?, read, bind, Option.bind_some]
  rw [if_neg (by omega), if_neg (by omega)]
  rfl

private theorem readEscape?_pair {x y z w x' y' z' w' c : Char} {high low : Nat} (left : List Char)
    (readHigh : unit? x y z w = some high) (isHigh : 0xD800 ≤ high ∧ high < 0xDC00)
    (readLow : unit? x' y' z' w' = some low) (pair : ofSurrogates? high low = some c) :
    readEscape? ('u' :: x :: y :: z :: w :: '\\' :: 'u' :: x' :: y' :: z' :: w' :: left) =
      some (c, left) := by
  simp only [readEscape?, readHigh, readLow, pair, bind, Option.bind_some, if_pos isHigh]
  rfl

theorem readChar?_of_units {c : Char} {chars : List Char}
    (written : chars ∈ ((units c).map unitEscape).prod) (left : List Char) :
    readChar? (chars ++ left) = some (c, left) := by
  have valid := toNat_valid c
  obtain ⟨small, written⟩ | ⟨large, high, low, writtenHigh, writtenLow, rfl⟩ :=
    mem_units_iff.mp written
  · obtain ⟨x, y, z, w, rfl⟩ := exists_of_mem_unitEscape written
    have read := readEscape?_unit left (unit?_eq_some_iff.mpr ⟨small, written⟩) (by omega)
    rw [Char.ofNat_toNat] at read
    simp only [List.cons_append, List.nil_append, readChar?_backslash, read]
  · obtain ⟨x, y, z, w, rfl⟩ := exists_of_mem_unitEscape writtenHigh
    obtain ⟨x', y', z', w', rfl⟩ := exists_of_mem_unitEscape writtenLow
    have readHigh := unit?_eq_some_iff.mpr ⟨by omega, writtenHigh⟩
    have readLow := unit?_eq_some_iff.mpr ⟨by omega, writtenLow⟩
    have isHigh : 0xD800 ≤ 0xD800 + (c.toNat - 0x10000) / 0x400 ∧
        0xD800 + (c.toNat - 0x10000) / 0x400 < 0xDC00 := by omega
    have pair := (ofSurrogates?_eq_some_iff isHigh).mpr ⟨large, rfl, rfl⟩
    simp only [List.cons_append, List.nil_append, readChar?_backslash,
      readEscape?_pair left readHigh isHigh readLow pair]

/-- However a character is written, it is read back, and nothing behind it. -/
theorem readChar?_of_mem {c : Char} {chars : List Char} (written : chars ∈ character c)
    (left : List Char) : readChar? (chars ++ left) = some (c, left) := by
  obtain (unescaped | letter) | units := written
  · exact readChar?_of_unescaped unescaped left
  · exact readChar?_of_letterEscape letter left
  · exact readChar?_of_units units left

/-- A letter that is read stands for its character. -/
private theorem mem_letters_of_ofLetter? {letter c : Char} (read : ofLetter? letter = some c) :
    (letter, c) ∈ letters := by
  unfold ofLetter? at read
  simp only [letters, List.mem_cons, Prod.mk.injEq, List.not_mem_nil, or_false]
  split_ifs at read <;> cases read <;> simp_all

/-- What is read behind a backslash is a letter or the units of a character. -/
private theorem mem_character_of_readEscape? {chars left : List Char} {c : Char}
    (read : readEscape? chars = some (c, left)) :
    ∃ written, '\\' :: written ∈ character c ∧ chars = written ++ left := by
  have valid := toNat_valid c
  unfold readEscape? at read
  split at read
  · next x y z w rest =>
    simp only [bind, Option.bind_eq_some_iff] at read
    obtain ⟨unit, readUnit, read⟩ := read
    obtain ⟨bound, written⟩ := unit?_eq_some_iff.mp readUnit
    split_ifs at read with isHigh isLow
    · split at read
      · next x' y' z' w' rest =>
        simp only [Option.bind_eq_some_iff, pure, Option.some.injEq, Prod.mk.injEq] at read
        obtain ⟨low, readLow, char, pair, rfl, rfl⟩ := read
        obtain ⟨boundLow, writtenLow⟩ := unit?_eq_some_iff.mp readLow
        obtain ⟨large, isUnit, isLow⟩ := (ofSurrogates?_eq_some_iff isHigh).mp pair
        rw [isUnit] at written
        rw [isLow] at writtenLow
        refine ⟨['u', x, y, z, w, '\\', 'u', x', y', z', w'], .inr ?_, rfl⟩
        exact mem_units_iff.mpr (.inr ⟨large, _, _, written, writtenLow, rfl⟩)
      · cases read
    · simp only [pure, Option.some.injEq, Prod.mk.injEq] at read
      obtain ⟨same, rfl⟩ := read
      obtain rfl := (ofNat_eq_iff (by omega)).mp same
      exact ⟨['u', x, y, z, w], .inr (mem_units_iff.mpr (.inl ⟨bound, written⟩)), rfl⟩
  · next letter rest _ =>
    simp only [bind, Option.bind_eq_some_iff] at read
    obtain ⟨char, known, read⟩ := read
    cases read
    exact ⟨[letter], .inl (.inr ⟨letter, mem_letters_of_ofLetter? known, rfl⟩), rfl⟩
  · cases read

/-- What is read as a character is one of the ways to write it. -/
theorem mem_character_of_readChar? {chars left : List Char} {c : Char}
    (read : readChar? chars = some (c, left)) :
    ∃ written ∈ character c, chars = written ++ left := by
  unfold readChar? at read
  split at read
  · cases read
  · next first rest =>
    split_ifs at read with backslash refused
    · obtain ⟨written, mem, rfl⟩ := mem_character_of_readEscape? read
      exact ⟨'\\' :: written, mem, by rw [backslash]; rfl⟩
    · cases read
      rw [not_or] at refused
      exact ⟨[c], .inl (.inl ⟨rfl, refused.1, backslash, Nat.not_lt.mp refused.2⟩), rfl⟩

/-- The closing quote is no character of the string. -/
private theorem readChar?_quote (rest : List Char) : readChar? ('"' :: rest) = none := by
  rw [readChar?, if_neg (by decide), if_pos (.inl rfl)]

private theorem readBody?_quote (rest : List Char) : readBody? ('"' :: rest) = some ([], rest) := by
  rw [readBody?, if_pos rfl]

private theorem readBody?_of_readChar? {chars left : List Char} {c : Char}
    (read : readChar? chars = some (c, left)) :
    readBody? chars = (readBody? left).map fun (body, left) => (c :: body, left) := by
  cases chars with
  | nil => cases read
  | cons first rest =>
    have noQuote : first ≠ '"' := by
      rintro rfl
      cases (readChar?_quote rest).symm.trans read
    rw [readBody?, if_neg noQuote]
    split
    · next refused => cases refused.symm.trans read
    · next same =>
      cases same.symm.trans read
      rfl

/-- What is read up to a closing quote is what stands before it, and nothing else can be read. -/
theorem readBody?_eq_some_iff {chars read left : List Char} :
    readBody? chars = some (read, left) ↔
      ∃ written ∈ body read, chars = written ++ '"' :: left := by
  constructor
  · intro success
    fun_induction readBody? chars generalizing read left with
    | case1 => cases success
    | case2 =>
      cases success
      exact ⟨[], rfl, rfl⟩
    | case3 => cases success
    | case4 _ _ _ _ _ readFirst _ ih =>
      obtain ⟨⟨_, _⟩, readRest, same⟩ := Option.map_eq_some_iff.mp success
      cases same
      obtain ⟨first, memFirst, splitFirst⟩ := mem_character_of_readChar? readFirst
      obtain ⟨rest, memRest, rfl⟩ := ih readRest
      rw [splitFirst, ← List.append_assoc]
      exact ⟨first ++ rest, append_mem_mul memFirst memRest, rfl⟩
  · rintro ⟨written, mem, rfl⟩
    induction read generalizing written with
    | nil =>
      obtain rfl := mem
      exact readBody?_quote left
    | cons c read ih =>
      obtain ⟨first, memFirst, rest, memRest, rfl⟩ := mem
      rw [readBody?_of_readChar? (by rw [List.append_assoc]; exact readChar?_of_mem memFirst _),
        ih rest memRest]
      rfl

private theorem mem_character_of_letter {letter c : Char} (listed : (letter, c) ∈ letters) :
    ['\\', letter] ∈ character c :=
  .inl (.inr ⟨letter, listed, rfl⟩)

/-- Writing chooses one of the ways to write a character. -/
theorem escape_mem_character (c : Char) : escape c ∈ character c := by
  unfold escape
  split_ifs with quote backslash backspace tab newline formFeed carriageReturn control
  any_goals exact mem_character_of_letter (by simp [letters, *])
  · refine .inr (mem_units_iff.mpr (.inl ⟨by omega, mem_unitEscape.mpr ?_⟩))
    refine ⟨'0', '0', (c.toNat / 16).digitChar, (c.toNat % 16).digitChar, ?_, ?_, ?_, ?_, rfl⟩
    · rw [show c.toNat / 4096 = 0 by omega]
      exact .inl rfl
    · rw [show c.toNat / 256 % 16 = 0 by omega]
      exact .inl rfl
    · rw [show c.toNat / 16 % 16 = c.toNat / 16 by omega]
      exact .inl rfl
    · exact .inl rfl
  · exact .inl (.inl ⟨rfl, quote, backslash, Nat.not_lt.mp control⟩)

/-- Writing leaves no control character as it is. -/
theorem le_toNat_of_mem_escape (c : Char) : ∀ written ∈ escape c, 0x20 ≤ written.toNat := by
  unfold escape
  split_ifs with quote backslash backspace tab newline formFeed carriageReturn control
  any_goals solve | simp
  · have high := toNat_digitChar (c.toNat / 16) (by omega)
    have low := toNat_digitChar (c.toNat % 16) (by omega)
    simp only [List.forall_mem_cons, Char.reduceToNat, Nat.reduceLeDiff, true_and, high, low]
    refine ⟨?_, ?_, nofun⟩ <;> split_ifs <;> omega
  · exact List.forall_mem_singleton.mpr (Nat.not_lt.mp control)

theorem flatMap_escape_mem_body (chars : List Char) : chars.flatMap escape ∈ body chars := by
  induction chars with
  | nil => rfl
  | cons c chars ih => exact append_mem_mul (escape_mem_character c) ih

end Quoted

end Concord.Json
