import Concord.Json.Quoted

/-! # JSON tokens

The words of JSON text. `Token.spell` writes a token, `Token.read?` reads the one at the head of a
text, and `Token.scan?` splits a whole text into its tokens, which blanks may separate.
-/

namespace Concord.Json

/-- A word of JSON text. -/
inductive Token where
  | openBracket
  | closeBracket
  | openBrace
  | closeBrace
  | comma
  | colon
  | null
  | bool (b : Bool)
  | integer (n : Int)
  | decimal (numeral : String)
  | string (s : String)
deriving DecidableEq

def isBlank (c : Char) : Bool :=
  c = ' ' || c = '\t' || c = '\n' || c = '\r'

namespace Numeral

/-- The characters that numerals are made of. -/
def isNumeralChar (c : Char) : Bool :=
  c.isDigit || c = '-' || c = '+' || c = '.' || c = 'e' || c = 'E'

/-- Digits before any fraction: at least one, and no zero in front of another digit. -/
def isWhole : List Char → Bool
  | [] => false
  | ['0'] => true
  | first :: _ => first ≠ '0'

/-- Digits without a sign, at least one. -/
def isDigits (chars : List Char) : Bool :=
  !chars.isEmpty && chars.all Char.isDigit

/-- An exponent with its letter and, perhaps, a sign. -/
def isExponent : List Char → Bool
  | letter :: '+' :: digits => (letter = 'e' || letter = 'E') && isDigits digits
  | letter :: '-' :: digits => (letter = 'e' || letter = 'E') && isDigits digits
  | letter :: digits => (letter = 'e' || letter = 'E') && isDigits digits
  | [] => false

/-- What makes a numeral no plain integer: a fraction, an exponent, or both. -/
def isFractional : List Char → Bool
  | '.' :: rest =>
    isDigits (rest.takeWhile Char.isDigit) &&
      ((rest.dropWhile Char.isDigit).isEmpty || isExponent (rest.dropWhile Char.isDigit))
  | rest => isExponent rest

/-- The token of a numeral without its sign; only a plain integer other than minus zero is one. -/
def ofUnsigned? (negative : Bool) (numeral : List Char) (chars : List Char) : Option Token :=
  let whole := chars.takeWhile Char.isDigit
  let rest := chars.dropWhile Char.isDigit
  if isWhole whole then
    if rest.isEmpty then
      let n := Nat.ofDigitChars 10 whole 0
      if negative then
        if n = 0 then some (.decimal (String.ofList numeral)) else some (.integer (-(n : Int)))
      else some (.integer n)
    else if isFractional rest then some (.decimal (String.ofList numeral))
    else none
  else none

def toToken? : List Char → Option Token
  | '-' :: chars => ofUnsigned? true ('-' :: chars) chars
  | chars => ofUnsigned? false chars chars

end Numeral

namespace Token

def ofWord? (word : List Char) : Option Token :=
  if word = ['n', 'u', 'l', 'l'] then some .null
  else if word = ['t', 'r', 'u', 'e'] then some (.bool true)
  else if word = ['f', 'a', 'l', 's', 'e'] then some (.bool false)
  else none

def ofMark? (c : Char) : Option Token :=
  if c = '[' then some .openBracket
  else if c = ']' then some .closeBracket
  else if c = '\x7b' then some .openBrace
  else if c = '\x7d' then some .closeBrace
  else if c = ',' then some .comma
  else if c = ':' then some .colon
  else none

/-- A token as it is written in compact text. -/
def spell : Token → List Char
  | openBracket => ['[']
  | closeBracket => [']']
  | openBrace => ['\x7b']
  | closeBrace => ['\x7d']
  | comma => [',']
  | colon => [':']
  | null => ['n', 'u', 'l', 'l']
  | bool true => ['t', 'r', 'u', 'e']
  | bool false => ['f', 'a', 'l', 's', 'e']
  | integer n => (toString n).toList
  | decimal numeral => numeral.toList
  | string s => '"' :: (s.toList.flatMap Quoted.escape ++ ['"'])

/-- Reads the token that begins with `c` and goes on in `rest`, as long as it can be. -/
def read? (c : Char) (rest : List Char) : Option (Token × List Char) :=
  match ofMark? c with
  | some token => some (token, rest)
  | none =>
    if c = '"' then do
      let (body, rest) ← Quoted.readBody? rest
      return (.string (String.ofList body), rest)
    else if Numeral.isNumeralChar c then do
      let token ← Numeral.toToken? (c :: rest.takeWhile Numeral.isNumeralChar)
      return (token, rest.dropWhile Numeral.isNumeralChar)
    else do
      let token ← ofWord? (c :: rest.takeWhile Char.isAlpha)
      return (token, rest.dropWhile Char.isAlpha)

private theorem length_dropWhile_le (p : Char → Bool) (chars : List Char) :
    (chars.dropWhile p).length ≤ chars.length :=
  (List.dropWhile_sublist p).length_le

theorem length_le_of_read? {c : Char} {rest left : List Char} {token : Token}
    (success : read? c rest = some (token, left)) : left.length ≤ rest.length := by
  unfold read? at success
  split at success
  · cases success
    exact Nat.le_refl _
  · split at success
    · simp only [Option.bind_eq_bind, Option.bind_eq_some_iff] at success
      obtain ⟨⟨body, left'⟩, inner, success⟩ := success
      cases success
      exact Nat.le_of_lt (Quoted.length_lt_of_readBody? inner)
    · split at success
      all_goals
        simp only [Option.bind_eq_bind, Option.bind_eq_some_iff] at success
        obtain ⟨token', _, success⟩ := success
        cases success
        exact length_dropWhile_le _ _

/-- Splits a text into its tokens. -/
def scan? (chars : List Char) : Option (List Token) :=
  match chars with
  | [] => some []
  | c :: rest =>
    if isBlank c then scan? rest
    else
      match read : read? c rest with
      | none => none
      | some (token, left) =>
        have : left.length ≤ rest.length := length_le_of_read? read
        (scan? left).map (token :: ·)
termination_by chars.length
decreasing_by all_goals simp only [List.length_cons]; omega

end Token

end Concord.Json
