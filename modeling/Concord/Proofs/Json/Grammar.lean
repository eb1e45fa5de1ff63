import Concord.Json.Basic
import Mathlib.Computability.Language

/-! # The grammar of JSON text

Which texts stand for a tree, as formal languages: `+` is choice, `*` is one text behind another.
The grammar is that of strict JSON, and knows nothing of how text is read or written here. Blanks
may stand around every word. A string may spell each of its characters in several ways. A numeral
without fraction and exponent stands for its integer, and only minus zero does not: it is kept as it
is written, like all other numerals.
-/

namespace Concord.Json

namespace Grammar

def just (text : String) : Language Char := {text.toList}

def optional (language : Language Char) : Language Char := 1 + language

def blanks : Language Char :=
  {chars | ∀ c ∈ chars, c ∈ [' ', '\t', '\n', '\r']}

def digits : Language Char :=
  {chars | chars ≠ [] ∧ ∀ c ∈ chars, c.isDigit = true}

/-- Zero, or digits that begin with another one. -/
def whole : Language Char :=
  {chars | chars = ['0'] ∨ chars ∈ digits ∧ chars.head? ≠ some '0'}

/-- Digits behind a point. -/
def fraction : Language Char := just "." * digits

/-- The digits of a power of ten, which may have a sign. -/
def exponent : Language Char :=
  (just "e" + just "E") * optional (just "+" + just "-") * digits

/-- The numerals without a sign. -/
def unsigned : Language Char := whole * (optional fraction * optional exponent)

def numeral : Language Char := optional (just "-") * unsigned

/-- The numeral, if it does not stand for an integer. -/
def decimal (written : String) : Language Char :=
  {chars | chars = written.toList ∧ chars ∈ numeral ∧ ∀ n : Int, chars ≠ (toString n).toList}

def hexDigit (n : Nat) : Language Char :=
  {chars | chars = [n.digitChar] ∨ chars = [n.digitChar.toUpper]}

/-- The escape of a 16-bit unit by its four hexadecimal digits. -/
def unitEscape (unit : Nat) : Language Char :=
  just "\\u" * hexDigit (unit / 4096) * hexDigit (unit / 256 % 16) * hexDigit (unit / 16 % 16) *
    hexDigit (unit % 16)

/-- The 16-bit units of a character: itself, or a high and a low surrogate. -/
def units (c : Char) : List Nat :=
  if c.toNat < 0x10000 then [c.toNat]
  else [0xD800 + (c.toNat - 0x10000) / 0x400, 0xDC00 + (c.toNat - 0x10000) % 0x400]

/-- The letters that may stand behind a backslash, and the characters that they stand for. -/
def letters : List (Char × Char) :=
  [('"', '"'), ('\\', '\\'), ('/', '/'), ('b', '\x08'), ('t', '\t'), ('n', '\n'), ('f', '\x0c'),
    ('r', '\r')]

/-- A character as it is, unless it is a quote, a backslash or a control character. -/
def unescaped (c : Char) : Language Char :=
  {chars | chars = [c] ∧ c ≠ '"' ∧ c ≠ '\\' ∧ 0x20 ≤ c.toNat}

def letterEscape (c : Char) : Language Char :=
  {chars | ∃ letter, (letter, c) ∈ letters ∧ chars = ['\\', letter]}

/-- The ways to write a character between quotes. -/
def character (c : Char) : Language Char :=
  unescaped c + letterEscape c + ((units c).map unitEscape).prod

def body (chars : List Char) : Language Char := (chars.map character).prod

def quoted (s : String) : Language Char := just "\"" * body s.toList * just "\""

theorem mem_just {chars : List Char} {text : String} : chars ∈ just text ↔ chars = text.toList :=
  Iff.rfl

theorem mem_optional {chars : List Char} {language : Language Char} :
    chars ∈ optional language ↔ chars = [] ∨ chars ∈ language := Iff.rfl

theorem mem_digits {chars : List Char} :
    chars ∈ digits ↔ chars ≠ [] ∧ ∀ c ∈ chars, c.isDigit = true := Iff.rfl

theorem mem_whole {chars : List Char} :
    chars ∈ whole ↔ chars = ['0'] ∨ chars ∈ digits ∧ chars.head? ≠ some '0' := Iff.rfl

theorem mem_decimal {chars : List Char} {written : String} :
    chars ∈ decimal written ↔
      chars = written.toList ∧ chars ∈ numeral ∧ ∀ n : Int, chars ≠ (toString n).toList := Iff.rfl

theorem mem_hexDigit {chars : List Char} {n : Nat} :
    chars ∈ hexDigit n ↔ chars = [n.digitChar] ∨ chars = [n.digitChar.toUpper] := Iff.rfl

end Grammar

open Grammar

mutual

/-- The ways to write a tree, without blanks around it. -/
def spelled : Json → Language Char
  | null => just "null"
  | bool true => just "true"
  | bool false => just "false"
  | integer n => just (toString n)
  | decimal written => Grammar.decimal written
  | string s => quoted s
  | array [] => just "[" * blanks * just "]"
  | array (item :: items) =>
    just "[" * blanks * item.spelled * blanks * moreItems items
  | object [] => just "\x7b" * blanks * just "\x7d"
  | object ((key, value) :: members) =>
    just "\x7b" * blanks * quoted key * blanks * just ":" * blanks * value.spelled * blanks *
      moreMembers members

/-- What follows on an item of an array. -/
def moreItems : List Json → Language Char
  | [] => just "]"
  | item :: items => just "," * blanks * item.spelled * blanks * moreItems items

/-- What follows on a member of an object. -/
def moreMembers : List (String × Json) → Language Char
  | [] => just "\x7d"
  | (key, value) :: members =>
    just "," * blanks * quoted key * blanks * just ":" * blanks * value.spelled * blanks *
      moreMembers members

end

/-- The texts that stand for a tree. -/
def texts (tree : Json) : Language Char := blanks * tree.spelled * blanks

end Concord.Json
