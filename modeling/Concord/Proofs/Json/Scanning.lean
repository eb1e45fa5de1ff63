import Concord.Proofs.Json.Numerals
import Concord.Proofs.Json.Strings
import Mathlib.Data.List.Chain

/-! # Scanning text

`Token.scan?` splits a text into tokens exactly as the grammar spells them, with blanks before and
after each (`mem_spaced_of_scan?`). Numerals and words are read as far as they go, so the other
direction holds where no two of them are neighbours (`scan?_of_mem_spaced`).
-/

namespace Concord.Json.Token

open Grammar Language Numeral

/-- The ways to write a token. -/
def lexemes : Token → Language Char
  | openBracket => just "["
  | closeBracket => just "]"
  | openBrace => just "\x7b"
  | closeBrace => just "\x7d"
  | comma => just ","
  | colon => just ":"
  | null => just "null"
  | bool true => just "true"
  | bool false => just "false"
  | integer n => just (toString n)
  | decimal written => Grammar.decimal written
  | string s => quoted s

/-- Tokens one after the other, each with blanks behind it. -/
def spaced : List Token → Language Char
  | [] => 1
  | token :: tokens => token.lexemes * blanks * spaced tokens

/-- Whether nothing that follows the token can be taken for a part of it. -/
def closed : Token → Bool
  | null | bool _ | integer _ | decimal _ => false
  | _ => true

/-- Whether a token can end before a character. -/
def endsBefore (c : Char) : Token → Bool
  | null | bool _ => !c.isAlpha
  | integer _ | decimal _ => !isNumeralChar c
  | _ => true

/-- No two neighbours run into each other. -/
def Separated (tokens : List Token) : Prop :=
  tokens.IsChain fun token next => token.closed = true ∨ next.closed = true

private theorem ofMark?_of_isNumeralChar {c : Char} (isNumeral : isNumeralChar c = true) :
    ofMark? c = none ∧ c ≠ '"' := by
  constructor
  · unfold ofMark?
    split_ifs <;> subst_vars <;> first | rfl | cases isNumeral
  · rintro rfl
    cases isNumeral

private theorem exists_read?_of_numeral {written left : List Char} {token : Token}
    (read : toToken? written = some token) (stop : ∀ d ∈ left.head?, isNumeralChar d = false) :
    ∃ c rest, written = c :: rest ∧ read? c (rest ++ left) = some (token, left) := by
  have isNumeral := mem_numeral_of_toToken? read
  have all := isNumeralChar_of_mem_numeral isNumeral
  cases written with
  | nil => exact (ne_nil_of_mem_numeral isNumeral rfl).elim
  | cons c rest =>
    have first := all c List.mem_cons_self
    have following : ∀ d ∈ rest, isNumeralChar d = true :=
      fun d mem => all d (List.mem_cons_of_mem c mem)
    obtain ⟨noMark, noQuote⟩ := ofMark?_of_isNumeralChar first
    refine ⟨c, rest, rfl, ?_⟩
    simp only [read?, noMark, if_neg noQuote, first, if_true,
      takeWhile_append_of_stop following stop, dropWhile_append_of_stop following stop, read, bind,
      Option.bind_some, pure]

private theorem read?_of_word {c : Char} {rest left : List Char} {token : Token}
    (first : ofMark? c = none ∧ c ≠ '"' ∧ isNumeralChar c = false)
    (following : ∀ d ∈ rest, d.isAlpha = true) (known : ofWord? (c :: rest) = some token)
    (stop : ∀ d ∈ left.head?, d.isAlpha = false) :
    read? c (rest ++ left) = some (token, left) := by
  obtain ⟨noMark, noQuote, noNumeral⟩ := first
  simp only [read?, noMark, if_neg noQuote, noNumeral, Bool.false_eq_true, if_false,
    takeWhile_append_of_stop following stop, dropWhile_append_of_stop following stop, known, bind,
    Option.bind_some, pure]

private theorem read?_of_quoted {s : String} {written : List Char} (left : List Char)
    (mem : written ∈ body s.toList) :
    read? '"' (written ++ '"' :: left) = some (string s, left) := by
  have read : Quoted.readBody? (written ++ '"' :: left) = some (s.toList, left) :=
    Quoted.readBody?_eq_some_iff.mpr ⟨written, mem, rfl⟩
  have noMark : ofMark? '"' = none := rfl
  simp only [read?, noMark, if_true, read, bind, Option.bind_some, pure, String.ofList_toList]

/-- A token is read however it is written, if it can end there. -/
theorem read?_of_mem_lexemes {token : Token} {written left : List Char}
    (mem : written ∈ token.lexemes) (stop : ∀ d ∈ left.head?, token.endsBefore d = true) :
    ∃ c rest, written = c :: rest ∧ read? c (rest ++ left) = some (token, left) := by
  cases token with
  | openBracket | closeBracket | openBrace | closeBrace | comma | colon =>
    obtain rfl := mem
    exact ⟨_, [], rfl, rfl⟩
  | null =>
    obtain rfl := mem
    have noLetter : ∀ d ∈ left.head?, d.isAlpha = false := by simpa [endsBefore] using stop
    have letters : ∀ d ∈ ['u', 'l', 'l'], d.isAlpha = true := List.all_eq_true.mp rfl
    exact ⟨'n', _, rfl, read?_of_word (by decide) letters rfl noLetter⟩
  | bool b =>
    have noLetter : ∀ d ∈ left.head?, d.isAlpha = false := by simpa [endsBefore] using stop
    cases b with
    | true =>
      obtain rfl := mem
      have letters : ∀ d ∈ ['r', 'u', 'e'], d.isAlpha = true := List.all_eq_true.mp rfl
      exact ⟨'t', _, rfl, read?_of_word (by decide) letters rfl noLetter⟩
    | false =>
      obtain rfl := mem
      have letters : ∀ d ∈ ['a', 'l', 's', 'e'], d.isAlpha = true := List.all_eq_true.mp rfl
      exact ⟨'f', _, rfl, read?_of_word (by decide) letters rfl noLetter⟩
  | integer n =>
    have stop : ∀ d ∈ left.head?, isNumeralChar d = false := by simpa [endsBefore] using stop
    exact exists_read?_of_numeral (toToken?_eq_integer_iff.mpr mem) stop
  | decimal numeral =>
    have stop : ∀ d ∈ left.head?, isNumeralChar d = false := by simpa [endsBefore] using stop
    exact exists_read?_of_numeral (toToken?_eq_decimal_iff.mpr mem) stop
  | string s =>
    obtain ⟨_, ⟨_, rfl, inner, inBody, rfl⟩, _, rfl, rfl⟩ := mem
    refine ⟨'"', inner ++ ['"'], rfl, ?_⟩
    rw [List.append_assoc]
    exact read?_of_quoted left inBody

private theorem mem_lexemes_of_ofMark? {c : Char} {token : Token} (known : ofMark? c = some token) :
    [c] ∈ token.lexemes := by
  unfold ofMark? at known
  split_ifs at known
  all_goals
    cases known
    subst_vars
    rfl

private theorem mem_lexemes_of_ofWord? {word : List Char} {token : Token}
    (known : ofWord? word = some token) : word ∈ token.lexemes := by
  unfold ofWord? at known
  split_ifs at known
  all_goals
    cases known
    subst_vars
    rfl

private theorem mem_lexemes_of_toToken? {chars : List Char} {token : Token}
    (read : toToken? chars = some token) : chars ∈ token.lexemes := by
  rcases toToken?_of_mem_numeral (mem_numeral_of_toToken? read) with ⟨n, rfl⟩ | kept
  · cases (toToken?_toString n).symm.trans read
    rfl
  · cases kept.symm.trans read
    exact toToken?_eq_decimal_iff.mp kept

/-- What is read as a token is one of the ways to write it. -/
theorem mem_lexemes_of_read? {c : Char} {rest left : List Char} {token : Token}
    (read : read? c rest = some (token, left)) :
    ∃ written ∈ token.lexemes, c :: rest = written ++ left := by
  unfold read? at read
  split at read
  · next known =>
    cases read
    exact ⟨[c], mem_lexemes_of_ofMark? known, rfl⟩
  · split_ifs at read with isQuote isNumeral
    · simp only [bind, Option.bind_eq_some_iff, pure, Option.some.injEq, Prod.mk.injEq] at read
      obtain ⟨⟨inner, _⟩, readBody, rfl, rfl⟩ := read
      obtain ⟨written, inBody, rfl⟩ := Quoted.readBody?_eq_some_iff.mp readBody
      refine ⟨'"' :: written ++ ['"'], ?_, by simp [isQuote]⟩
      refine append_mem_mul (append_mem_mul (a := ['"']) rfl ?_) rfl
      rwa [String.toList_ofList]
    all_goals
      simp only [bind, Option.bind_eq_some_iff, pure, Option.some.injEq, Prod.mk.injEq] at read
      obtain ⟨_, known, rfl, rfl⟩ := read
      refine ⟨_, ?_, by rw [List.cons_append, List.takeWhile_append_dropWhile]⟩
    · exact mem_lexemes_of_toToken? known
    · exact mem_lexemes_of_ofWord? known

theorem mem_blank_iff {c : Char} : c ∈ [' ', '\t', '\n', '\r'] ↔ isBlank c = true := by
  simp [isBlank, or_assoc]

private theorem endsBefore_of_isBlank {c : Char} (blank : isBlank c = true) (token : Token) :
    token.endsBefore c = true := by
  rcases by simpa [isBlank] using blank with ((rfl | rfl) | rfl) | rfl <;> cases token <;> rfl

private theorem endsBefore_of_closed {token : Token} (isClosed : token.closed = true) (c : Char) :
    token.endsBefore c = true := by
  cases token <;> first | rfl | cases isClosed

/-- Any token can end before the first character of a closed one. -/
private theorem endsBefore_head {next : Token} (isClosed : next.closed = true) {c : Char}
    {rest : List Char} (mem : c :: rest ∈ next.lexemes) (token : Token) :
    token.endsBefore c = true := by
  have first : c ∈ ['[', ']', '\x7b', '\x7d', ',', ':', '"'] := by
    cases next with
    | openBracket | closeBracket | openBrace | closeBrace | comma | colon => cases mem; decide
    | string s =>
      obtain ⟨_, ⟨_, rfl, inner, _, rfl⟩, _, rfl, same⟩ := mem
      cases same
      decide
    | null | bool | integer | decimal => cases isClosed
  simp only [List.mem_cons, List.not_mem_nil, or_false] at first
  rcases first with rfl | rfl | rfl | rfl | rfl | rfl | rfl <;> cases token <;> rfl

theorem isBlank_of_read? {c : Char} {rest left : List Char} {token : Token}
    (read : read? c rest = some (token, left)) : isBlank c = false := by
  rw [Bool.eq_false_iff]
  intro blank
  have refused : read? c rest = none := by
    rcases by simpa [isBlank] using blank with ((rfl | rfl) | rfl) | rfl <;> rfl
  cases refused.symm.trans read

@[simp] theorem scan?_nil : scan? [] = some [] := by
  rw [scan?]

theorem scan?_blanks {front : List Char} (areBlanks : front ∈ blanks) (back : List Char) :
    scan? (front ++ back) = scan? back := by
  induction front with
  | nil => rfl
  | cons c rest ih =>
    obtain ⟨blank, areBlanks⟩ := List.forall_mem_cons.mp areBlanks
    rw [List.cons_append, scan?, if_pos (mem_blank_iff.mp blank)]
    exact ih areBlanks

theorem scan?_of_read? {c : Char} {rest left : List Char} {token : Token}
    (read : read? c rest = some (token, left)) :
    scan? (c :: rest) = (scan? left).map (token :: ·) := by
  rw [scan?, isBlank_of_read? read, if_neg (by decide)]
  split
  · next refused => cases refused.symm.trans read
  · next same =>
    cases same.symm.trans read
    rfl

/-- Every text that is split into tokens spells them, with blanks around each. -/
theorem mem_spaced_of_scan? {chars : List Char} {tokens : List Token}
    (success : scan? chars = some tokens) : chars ∈ blanks * spaced tokens := by
  fun_induction scan? chars generalizing tokens with
  | case1 =>
    cases success
    exact ⟨[], nofun, [], rfl, rfl⟩
  | case2 c rest blank ih =>
    obtain ⟨front, areBlanks, back, spelled, rfl⟩ := ih success
    refine ⟨c :: front, ?_, back, spelled, rfl⟩
    exact List.forall_mem_cons.mpr ⟨mem_blank_iff.mpr blank, areBlanks⟩
  | case3 => cases success
  | case4 c rest _ token left read _ ih =>
    obtain ⟨others, scanned, rfl⟩ := Option.map_eq_some_iff.mp success
    obtain ⟨front, areBlanks, back, spelled, rfl⟩ := ih scanned
    obtain ⟨written, isToken, same⟩ := mem_lexemes_of_read? read
    refine ⟨[], nofun, c :: rest, ?_, rfl⟩
    rw [same]
    exact ⟨written ++ front, append_mem_mul isToken areBlanks, back, spelled, List.append_assoc ..⟩

private theorem head_of_mem_spaced {tokens : List Token} {chars : List Char}
    (mem : chars ∈ spaced tokens) :
    ∀ c ∈ chars.head?, ∃ next ∈ tokens.head?, ∃ rest, c :: rest ∈ next.lexemes := by
  intro c first
  cases tokens with
  | nil =>
    obtain rfl := mem
    cases first
  | cons token tokens =>
    obtain ⟨_, ⟨written, isToken, after, _, rfl⟩, others, _, rfl⟩ := mem
    have stop : ∀ d ∈ ([] : List Char).head?, token.endsBefore d = true := nofun
    obtain ⟨d, rest, rfl, _⟩ := read?_of_mem_lexemes isToken stop
    cases first
    exact ⟨token, rfl, rest, isToken⟩

/-- Tokens that do not run into each other are told apart, however they are written. -/
theorem scan?_of_mem_spaced {tokens : List Token} (separated : Separated tokens)
    {chars : List Char} (mem : chars ∈ spaced tokens) : scan? chars = some tokens := by
  induction tokens generalizing chars with
  | nil =>
    obtain rfl := mem
    exact scan?_nil
  | cons token tokens ih =>
    obtain ⟨_, ⟨written, isToken, after, areBlanks, rfl⟩, others, spelled, rfl⟩ := mem
    obtain ⟨apart, separated⟩ := List.isChain_cons.mp separated
    have stop : ∀ d ∈ (after ++ others).head?, token.endsBefore d = true := by
      intro d first
      cases after with
      | nil =>
        obtain ⟨next, isNext, rest, isWritten⟩ := head_of_mem_spaced spelled d first
        rcases apart next isNext with isClosed | isClosed
        · exact endsBefore_of_closed isClosed d
        · exact endsBefore_head isClosed isWritten token
      | cons blank after =>
        cases first
        exact endsBefore_of_isBlank (mem_blank_iff.mp (areBlanks d List.mem_cons_self)) token
    obtain ⟨c, rest, rfl, read⟩ := read?_of_mem_lexemes isToken stop
    simp only [List.append_assoc, List.cons_append]
    rw [scan?_of_read? read, scan?_blanks areBlanks, ih separated spelled]
    rfl

end Concord.Json.Token
