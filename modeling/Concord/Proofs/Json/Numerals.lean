import Concord.Json.Token
import Concord.Proofs.Json.Grammar

/-! # Reading numerals

`Numeral.toToken?` takes exactly the numerals of the grammar, and gives an integer for its decimal
text and for no other. The digits are split off as far as they go, so what follows them cannot begin
with a digit; `isFractional_iff` says what it can be.
-/

namespace Concord.Json

open Grammar Language

theorem takeWhile_append_of_stop {p : Char → Bool} {front back : List Char}
    (all : ∀ c ∈ front, p c = true) (stop : ∀ c ∈ back.head?, p c = false) :
    (front ++ back).takeWhile p = front := by
  rw [List.takeWhile_append_of_pos all]
  cases back with
  | nil => simp
  | cons c rest => simp [stop c rfl]

theorem dropWhile_append_of_stop {p : Char → Bool} {front back : List Char}
    (all : ∀ c ∈ front, p c = true) (stop : ∀ c ∈ back.head?, p c = false) :
    (front ++ back).dropWhile p = back := by
  rw [List.dropWhile_append_of_pos all]
  cases back with
  | nil => simp
  | cons c rest => simp [stop c rfl]

namespace Grammar

theorem mem_fraction {chars : List Char} :
    chars ∈ fraction ↔ ∃ rest ∈ digits, chars = '.' :: rest := by
  rw [fraction, mem_mul]
  constructor
  · rintro ⟨_, rfl, rest, areDigits, rfl⟩
    exact ⟨rest, areDigits, rfl⟩
  · rintro ⟨rest, areDigits, rfl⟩
    exact ⟨['.'], rfl, rest, areDigits, rfl⟩

theorem mem_exponent {chars : List Char} :
    chars ∈ exponent ↔ ∃ letter sign rest, (letter = 'e' ∨ letter = 'E') ∧
      (sign = [] ∨ sign = ['+'] ∨ sign = ['-']) ∧ rest ∈ digits ∧
      chars = letter :: (sign ++ rest) := by
  simp only [exponent, mem_mul, mem_add, mem_optional, mem_just]
  constructor
  · rintro ⟨_, ⟨_, isLetter, sign, isSign, rfl⟩, rest, areDigits, rfl⟩
    rcases isLetter with rfl | rfl
    · exact ⟨'e', sign, rest, .inl rfl, isSign, areDigits, rfl⟩
    · exact ⟨'E', sign, rest, .inr rfl, isSign, areDigits, rfl⟩
  · rintro ⟨letter, sign, rest, isLetter, isSign, areDigits, rfl⟩
    refine ⟨letter :: sign, ⟨[letter], ?_, sign, isSign, rfl⟩, rest, areDigits, rfl⟩
    rcases isLetter with rfl | rfl
    · exact .inl rfl
    · exact .inr rfl

theorem isDigit_of_mem_whole {chars : List Char} (mem : chars ∈ whole) :
    ∀ c ∈ chars, c.isDigit = true := by
  obtain rfl | ⟨areDigits, _⟩ := mem
  · simp
  · exact areDigits.2

end Grammar

namespace Numeral

theorem isDigits_iff {chars : List Char} : isDigits chars = true ↔ chars ∈ digits := by
  simp only [isDigits, Bool.and_eq_true, Bool.not_eq_true', List.isEmpty_eq_false_iff,
    List.all_eq_true]
  exact Iff.rfl

theorem isWhole_iff {chars : List Char} (all : ∀ c ∈ chars, c.isDigit = true) :
    isWhole chars = true ↔ chars ∈ whole := by
  rw [mem_whole, mem_digits]
  unfold isWhole
  split
  · simp
  · simp
  · next first rest notZero =>
    simp only [decide_eq_true_eq, List.head?_cons, ne_eq, Option.some.injEq]
    constructor
    · intro nonzero
      exact .inr ⟨⟨List.cons_ne_nil first rest, all⟩, nonzero⟩
    · rintro (zero | ⟨_, nonzero⟩)
      · cases zero
        exact (notZero rfl rfl).elim
      · exact nonzero

theorem isExponent_iff {chars : List Char} : isExponent chars = true ↔ chars ∈ exponent := by
  rw [mem_exponent]
  constructor
  · intro success
    unfold isExponent at success
    split at success
    · next letter rest =>
      simp only [Bool.and_eq_true, Bool.or_eq_true, decide_eq_true_eq, isDigits_iff] at success
      exact ⟨letter, ['+'], rest, success.1, .inr (.inl rfl), success.2, rfl⟩
    · next letter rest =>
      simp only [Bool.and_eq_true, Bool.or_eq_true, decide_eq_true_eq, isDigits_iff] at success
      exact ⟨letter, ['-'], rest, success.1, .inr (.inr rfl), success.2, rfl⟩
    · next letter rest _ _ =>
      simp only [Bool.and_eq_true, Bool.or_eq_true, decide_eq_true_eq, isDigits_iff] at success
      exact ⟨letter, [], rest, success.1, .inl rfl, success.2, rfl⟩
    · cases success
  · rintro ⟨letter, sign, rest, isLetter, isSign, areDigits, rfl⟩
    have success : ((decide (letter = 'e') || decide (letter = 'E')) && isDigits rest) = true := by
      simp only [Bool.and_eq_true, Bool.or_eq_true, decide_eq_true_eq]
      exact ⟨isLetter, isDigits_iff.mpr areDigits⟩
    rcases isSign with rfl | rfl | rfl
    · have noDigit (c : Char) (sign : c = '+' ∨ c = '-') : c.isDigit = false := by
        rcases sign with rfl | rfl <;> rfl
      rw [List.nil_append]
      unfold isExponent
      split
      · next same =>
        cases same
        exact nomatch (noDigit '+' (.inl rfl)).symm.trans (areDigits.2 '+' List.mem_cons_self)
      · next same =>
        cases same
        exact nomatch (noDigit '-' (.inr rfl)).symm.trans (areDigits.2 '-' List.mem_cons_self)
      · next same => cases same; exact success
      · next same => cases same
    · exact success
    · exact success

private theorem head_of_mem_exponent {chars : List Char} (mem : chars ∈ exponent) :
    ∃ letter rest, (letter = 'e' ∨ letter = 'E') ∧ chars = letter :: rest := by
  obtain ⟨letter, sign, rest, isLetter, _, _, rfl⟩ := mem_exponent.mp mem
  exact ⟨letter, sign ++ rest, isLetter, rfl⟩

private theorem head_of_mem_optional_exponent {chars : List Char}
    (mem : chars ∈ optional exponent) : ∀ c ∈ chars.head?, c.isDigit = false := by
  rcases mem with rfl | mem
  · nofun
  · obtain ⟨letter, rest, isLetter, rfl⟩ := head_of_mem_exponent mem
    rintro _ ⟨⟩
    rcases isLetter with rfl | rfl <;> rfl

/-- What may stand behind the digits of a numeral, if anything does. -/
theorem isFractional_iff {chars : List Char} :
    isFractional chars = true ↔ chars ≠ [] ∧ chars ∈ optional fraction * optional exponent := by
  constructor
  · intro success
    unfold isFractional at success
    split at success
    · next rest =>
      simp only [Bool.and_eq_true, Bool.or_eq_true, isDigits_iff, List.isEmpty_iff, isExponent_iff]
        at success
      refine ⟨List.cons_ne_nil '.' rest, ?_⟩
      rw [← List.takeWhile_append_dropWhile (p := Char.isDigit) (l := rest), ← List.cons_append]
      exact append_mem_mul (.inr (mem_fraction.mpr ⟨_, success.1, rfl⟩)) success.2
    · rw [isExponent_iff] at success
      refine ⟨?_, [], .inl rfl, chars, .inr success, rfl⟩
      rintro rfl
      obtain ⟨_, _, _, _, _, _, same⟩ := mem_exponent.mp success
      cases same
  · rintro ⟨nonempty, front, isFraction, back, isBack, rfl⟩
    rcases isFraction with rfl | isFraction
    · rcases isBack with rfl | isBack
      · exact (nonempty rfl).elim
      · obtain ⟨letter, rest, isLetter, rfl⟩ := head_of_mem_exponent isBack
        change isFractional (letter :: rest) = true
        unfold isFractional
        split
        · next same =>
          cases same
          rcases isLetter with isLetter | isLetter <;> cases isLetter
        · exact isExponent_iff.mpr isBack
    · obtain ⟨rest, areDigits, rfl⟩ := mem_fraction.mp isFraction
      have stop := head_of_mem_optional_exponent isBack
      simp only [List.cons_append, isFractional, takeWhile_append_of_stop areDigits.2 stop,
        dropWhile_append_of_stop areDigits.2 stop, Bool.and_eq_true, Bool.or_eq_true,
        List.isEmpty_iff, isDigits_iff, isExponent_iff]
      exact ⟨areDigits, isBack⟩

private theorem head_of_mem_tail {chars : List Char}
    (mem : chars ∈ optional fraction * optional exponent) :
    ∀ c ∈ chars.head?, c.isDigit = false := by
  obtain ⟨front, isFraction, back, isBack, rfl⟩ := mem
  rcases isFraction with rfl | isFraction
  · exact head_of_mem_optional_exponent isBack
  · obtain ⟨rest, _, rfl⟩ := mem_fraction.mp isFraction
    rintro _ ⟨⟩
    rfl

private theorem exists_digitChar {c : Char} (isDigit : c.isDigit = true) :
    ∃ d < 10, c = Nat.digitChar d := by
  obtain ⟨above, below⟩ := Char.isDigit_iff_toNat.mp isDigit
  simp only [Char.reduceToNat] at above below
  refine ⟨c.toNat - 48, by omega, ?_⟩
  rw [← Char.toNat_inj, Nat.toNat_digitChar_of_lt_ten (by omega)]
  omega

private theorem head_toDigits {n : Nat} (positive : 0 < n) :
    (Nat.toDigits 10 n).head? ≠ some '0' := by
  induction n using Nat.strongRecOn with
  | ind n ih =>
    by_cases small : n < 10
    · rw [Nat.toDigits_of_lt_base small, List.head?_cons, ne_eq, Option.some.injEq,
        Nat.digitChar_eq_zero]
      omega
    · rw [Nat.toDigits_of_base_le (by omega) (by omega),
        List.head?_append_of_ne_nil _ Nat.toDigits_ne_nil]
      exact ih (n / 10) (by omega) (by omega)

/-- Digits without a superfluous zero are the digits of a natural number. -/
theorem mem_whole_iff_toDigits {chars : List Char} :
    chars ∈ whole ↔ ∃ n, chars = Nat.toDigits 10 n := by
  constructor
  · rintro (rfl | ⟨⟨nonempty, all⟩, noZero⟩)
    · exact ⟨0, rfl⟩
    · suffices ∃ n, 0 < n ∧ chars = Nat.toDigits 10 n by
        obtain ⟨n, _, same⟩ := this
        exact ⟨n, same⟩
      induction chars using List.reverseRecOn with
      | nil => exact (nonempty rfl).elim
      | append_singleton front last ih =>
        obtain ⟨d, small, rfl⟩ := exists_digitChar (all last (by simp))
        by_cases single : front = []
        · subst single
          have positive : d ≠ 0 := by
            rintro rfl
            exact noZero rfl
          exact ⟨d, by omega, (Nat.toDigits_of_lt_base small).symm⟩
        · rw [List.head?_append_of_ne_nil _ single] at noZero
          obtain ⟨n, positive, rfl⟩ := ih noZero single fun c mem => all c (by simp [mem])
          refine ⟨10 * n + d, by omega, ?_⟩
          rw [← Nat.toDigits_append_toDigits (by omega) positive small,
            Nat.toDigits_of_lt_base small]
  · rintro ⟨n, rfl⟩
    by_cases zero : n = 0
    · exact .inl (by rw [zero, Nat.toDigits_zero])
    · exact .inr ⟨⟨Nat.toDigits_ne_nil, fun c => Nat.isDigit_of_mem_toDigits (by omega) (by omega)⟩,
        head_toDigits (by omega)⟩

theorem toList_toString_natCast (n : Nat) : (toString (n : Int)).toList = Nat.toDigits 10 n := by
  change (toString n).toList = Nat.toDigits 10 n
  rw [Nat.toString_eq_ofList_toDigits, String.toList_ofList]

theorem toList_toString_neg {n : Nat} (positive : n ≠ 0) :
    (toString (-(n : Int))).toList = '-' :: Nat.toDigits 10 n := by
  obtain ⟨m, rfl⟩ := Nat.exists_eq_succ_of_ne_zero positive
  change ("-" ++ toString (m + 1)).toList = '-' :: Nat.toDigits 10 (m + 1)
  simp only [String.toList_append, Nat.toString_eq_ofList_toDigits, String.toList_ofList]
  rfl

private theorem ofUnsigned?_append (negative : Bool) (numeral : List Char) {front back : List Char}
    (isWhole : front ∈ whole) (isTail : back ∈ optional fraction * optional exponent) :
    ofUnsigned? negative numeral (front ++ back) =
      if back = [] then ofUnsigned? negative numeral front
      else some (.decimal (String.ofList numeral)) := by
  have all := isDigit_of_mem_whole isWhole
  have stop := head_of_mem_tail isTail
  by_cases plain : back = []
  · rw [if_pos plain, plain, List.append_nil]
  · have fractional := isFractional_iff.mpr ⟨plain, isTail⟩
    simp only [ofUnsigned?, takeWhile_append_of_stop all stop, dropWhile_append_of_stop all stop,
      (isWhole_iff all).mpr isWhole, if_true, if_neg plain, List.isEmpty_iff, fractional]

private theorem ofUnsigned?_toDigits (negative : Bool) (numeral : List Char) (n : Nat) :
    ofUnsigned? negative numeral (Nat.toDigits 10 n) =
      some (if negative = true then
        if n = 0 then .decimal (String.ofList numeral) else .integer (-(n : Int))
        else .integer n) := by
  have isWhole := mem_whole_iff_toDigits.mpr ⟨n, rfl⟩
  have all := isDigit_of_mem_whole isWhole
  have stop : ∀ c ∈ ([] : List Char).head?, c.isDigit = false := nofun
  have front := takeWhile_append_of_stop all stop
  have back := dropWhile_append_of_stop all stop
  rw [List.append_nil] at front back
  simp only [ofUnsigned?, front, back, (isWhole_iff all).mpr isWhole, if_true, List.isEmpty_nil,
    Nat.ofDigitChars_ten_toDigits]
  split_ifs <;> rfl

private theorem mem_unsigned_of_ofUnsigned? {negative : Bool} {numeral chars : List Char}
    {token : Token} (success : ofUnsigned? negative numeral chars = some token) :
    chars ∈ unsigned := by
  have all : ∀ c ∈ chars.takeWhile Char.isDigit, c.isDigit = true :=
    List.all_eq_true.mp List.all_takeWhile
  have split : chars.takeWhile Char.isDigit ++ chars.dropWhile Char.isDigit = chars :=
    List.takeWhile_append_dropWhile
  simp only [ofUnsigned?, List.isEmpty_iff] at success
  by_cases accepted : isWhole (chars.takeWhile Char.isDigit) = true
  · rw [if_pos accepted] at success
    have isWhole := (isWhole_iff all).mp accepted
    by_cases plain : chars.dropWhile Char.isDigit = []
    · rw [plain] at split
      rw [← split]
      exact append_mem_mul isWhole ⟨[], .inl rfl, [], .inl rfl, rfl⟩
    · rw [if_neg plain] at success
      split_ifs at success with isTail
      rw [← split]
      exact append_mem_mul isWhole (isFractional_iff.mp isTail).2
  · rw [if_neg accepted] at success
    cases success

/-- A numeral without a sign, if it is not the plain digits of a number, is kept as written. -/
private theorem ofUnsigned?_of_mem_unsigned {chars : List Char} (mem : chars ∈ unsigned)
    (negative : Bool) (numeral : List Char) :
    (∃ n, chars = Nat.toDigits 10 n) ∨
      ofUnsigned? negative numeral chars = some (.decimal (String.ofList numeral)) := by
  obtain ⟨front, isWhole, back, isTail, rfl⟩ := mem
  by_cases plain : back = []
  · obtain ⟨n, rfl⟩ := mem_whole_iff_toDigits.mp isWhole
    subst plain
    exact .inl ⟨n, List.append_nil _⟩
  · refine .inr ?_
    change ofUnsigned? negative numeral (front ++ back) = _
    rw [ofUnsigned?_append negative numeral isWhole isTail, if_neg plain]

private theorem toToken?_of_no_sign {chars : List Char} (noSign : chars.head? ≠ some '-') :
    toToken? chars = ofUnsigned? false chars chars := by
  unfold toToken?
  split
  · exact (noSign rfl).elim
  · rfl

private theorem head_of_mem_unsigned {chars : List Char} (mem : chars ∈ unsigned) :
    chars.head? ≠ some '-' := by
  obtain ⟨front, isWhole, back, _, rfl⟩ := mem
  obtain ⟨n, rfl⟩ := mem_whole_iff_toDigits.mp isWhole
  change (Nat.toDigits 10 n ++ back).head? ≠ some '-'
  rw [List.head?_append_of_ne_nil _ Nat.toDigits_ne_nil]
  intro sign
  cases isDigit_of_mem_whole isWhole '-' (List.mem_of_mem_head? sign)

/-- The decimal text of an integer is read as that integer. -/
theorem toToken?_toString (n : Int) : toToken? (toString n).toList = some (.integer n) := by
  obtain ⟨m, rfl | rfl⟩ := n.eq_nat_or_neg
  · have unsigned : Nat.toDigits 10 m ∈ unsigned :=
      ⟨_, mem_whole_iff_toDigits.mpr ⟨m, rfl⟩, [], ⟨[], .inl rfl, [], .inl rfl, rfl⟩,
        List.append_nil _⟩
    rw [toList_toString_natCast, toToken?_of_no_sign (head_of_mem_unsigned unsigned),
      ofUnsigned?_toDigits]
    rfl
  · by_cases zero : m = 0
    · subst zero
      rfl
    · rw [toList_toString_neg zero]
      change ofUnsigned? true _ (Nat.toDigits 10 m) = _
      rw [ofUnsigned?_toDigits, if_pos rfl, if_neg zero]

theorem mem_numeral_of_toToken? {chars : List Char} {token : Token}
    (success : toToken? chars = some token) : chars ∈ numeral := by
  unfold toToken? at success
  split at success
  · exact ⟨['-'], .inr rfl, _, mem_unsigned_of_ofUnsigned? success, rfl⟩
  · exact ⟨[], .inl rfl, _, mem_unsigned_of_ofUnsigned? success, rfl⟩

/-- Every numeral is read: as an integer if it is the decimal text of one, or else as it is. -/
theorem toToken?_of_mem_numeral {chars : List Char} (mem : chars ∈ numeral) :
    (∃ n : Int, chars = (toString n).toList) ∨
      toToken? chars = some (.decimal (String.ofList chars)) := by
  obtain ⟨sign, isSign, rest, isRest, rfl⟩ := mem
  rcases isSign with rfl | rfl
  · change (∃ n : Int, rest = (toString n).toList) ∨ toToken? rest = _
    rw [toToken?_of_no_sign (head_of_mem_unsigned isRest)]
    refine (ofUnsigned?_of_mem_unsigned isRest false rest).imp_left ?_
    rintro ⟨n, same⟩
    exact ⟨n, by rw [same, toList_toString_natCast]⟩
  · rcases ofUnsigned?_of_mem_unsigned isRest true ('-' :: rest) with ⟨n, rfl⟩ | kept
    · by_cases zero : n = 0
      · refine .inr ?_
        change ofUnsigned? true _ (Nat.toDigits 10 n) = _
        rw [ofUnsigned?_toDigits, if_pos rfl, if_pos zero]
        rfl
      · exact .inl ⟨-n, (toList_toString_neg zero).symm⟩
    · exact .inr kept

theorem toToken?_eq_integer_iff {chars : List Char} {n : Int} :
    toToken? chars = some (.integer n) ↔ chars = (toString n).toList := by
  constructor
  · intro success
    rcases toToken?_of_mem_numeral (mem_numeral_of_toToken? success) with ⟨m, rfl⟩ | kept
    · cases (toToken?_toString m).symm.trans success
      rfl
    · cases kept.symm.trans success
  · rintro rfl
    exact toToken?_toString n

theorem toToken?_eq_decimal_iff {chars : List Char} {written : String} :
    toToken? chars = some (.decimal written) ↔ chars ∈ Grammar.decimal written := by
  rw [mem_decimal]
  constructor
  · intro success
    have isNumeral := mem_numeral_of_toToken? success
    rcases toToken?_of_mem_numeral isNumeral with ⟨m, rfl⟩ | kept
    · cases (toToken?_toString m).symm.trans success
    · cases kept.symm.trans success
      refine ⟨String.toList_ofList.symm, isNumeral, ?_⟩
      rintro n rfl
      cases (toToken?_toString n).symm.trans success
  · rintro ⟨rfl, isNumeral, noInteger⟩
    rcases toToken?_of_mem_numeral isNumeral with ⟨m, same⟩ | kept
    · exact (noInteger m same).elim
    · rw [kept, String.ofList_toList]

/-- The decimal text of an integer is a numeral. -/
theorem toString_mem_numeral (n : Int) : (toString n).toList ∈ numeral :=
  mem_numeral_of_toToken? (toToken?_toString n)

theorem ne_nil_of_mem_numeral {chars : List Char} (mem : chars ∈ numeral) : chars ≠ [] := by
  obtain ⟨sign, _, _, ⟨front, isWhole, back, _, rfl⟩, rfl⟩ := mem
  obtain ⟨n, rfl⟩ := mem_whole_iff_toDigits.mp isWhole
  simp [Nat.toDigits_ne_nil]

private theorem isNumeralChar_of_isDigit {c : Char} (isDigit : c.isDigit = true) :
    isNumeralChar c = true := by
  simp [isNumeralChar, isDigit]

private theorem isNumeralChar_of_mem_fraction {chars : List Char}
    (mem : chars ∈ optional fraction) : ∀ c ∈ chars, isNumeralChar c = true := by
  rcases mem with rfl | mem
  · nofun
  · obtain ⟨rest, areDigits, rfl⟩ := mem_fraction.mp mem
    intro c present
    rcases List.mem_cons.mp present with rfl | present
    · rfl
    · exact isNumeralChar_of_isDigit (areDigits.2 c present)

private theorem isNumeralChar_of_mem_exponent {chars : List Char}
    (mem : chars ∈ optional exponent) : ∀ c ∈ chars, isNumeralChar c = true := by
  rcases mem with rfl | mem
  · nofun
  · obtain ⟨letter, sign, rest, isLetter, isSign, areDigits, rfl⟩ := mem_exponent.mp mem
    intro c present
    rcases List.mem_cons.mp present with rfl | present
    · rcases isLetter with rfl | rfl <;> rfl
    · rcases List.mem_append.mp present with present | present
      · rcases isSign with rfl | rfl | rfl <;> cases present <;> first | rfl | contradiction
      · exact isNumeralChar_of_isDigit (areDigits.2 c present)

/-- A numeral has no character that could end it early. -/
theorem isNumeralChar_of_mem_numeral {chars : List Char} (mem : chars ∈ numeral) :
    ∀ c ∈ chars, isNumeralChar c = true := by
  obtain ⟨sign, isSign, _, ⟨front, isWhole, _, isTail, rfl⟩, rfl⟩ := mem
  obtain ⟨point, isFraction, power, isExponent, rfl⟩ := isTail
  intro c present
  simp only [List.mem_append] at present
  rcases present with present | present | present | present
  · rcases isSign with rfl | rfl <;> cases present <;> first | rfl | contradiction
  · exact isNumeralChar_of_isDigit (isDigit_of_mem_whole isWhole c present)
  · exact isNumeralChar_of_mem_fraction isFraction c present
  · exact isNumeralChar_of_mem_exponent isExponent c present

theorem le_toNat_of_isNumeralChar {c : Char} (isNumeral : isNumeralChar c = true) :
    0x20 ≤ c.toNat := by
  simp only [isNumeralChar, Bool.or_eq_true, decide_eq_true_eq, Char.isDigit_iff_toNat,
    Char.reduceToNat] at isNumeral
  obtain ((((⟨above, _⟩ | rfl) | rfl) | rfl) | rfl) | rfl := isNumeral
  · omega
  all_goals decide

end Numeral

end Concord.Json
