/-! # Quoted strings

How characters are written between the quotes of a JSON string. Writing escapes the quote, the
backslash and the control characters below U+0020 and leaves everything else as it is. Reading takes
every escape of the format; half a surrogate pair is refused, and so is a raw control character.
-/

namespace Concord.Json.Quoted

def escape (c : Char) : List Char :=
  if c = '"' then ['\\', '"']
  else if c = '\\' then ['\\', '\\']
  else if c = '\x08' then ['\\', 'b']
  else if c = '\t' then ['\\', 't']
  else if c = '\n' then ['\\', 'n']
  else if c = '\x0c' then ['\\', 'f']
  else if c = '\r' then ['\\', 'r']
  else if c.toNat < 0x20 then
    ['\\', 'u', '0', '0', Nat.digitChar (c.toNat / 16), Nat.digitChar (c.toNat % 16)]
  else [c]

/-- The character that a one-letter escape stands for. -/
def ofLetter? (letter : Char) : Option Char :=
  if letter = '"' then some '"'
  else if letter = '\\' then some '\\'
  else if letter = '/' then some '/'
  else if letter = 'b' then some '\x08'
  else if letter = 't' then some '\t'
  else if letter = 'n' then some '\n'
  else if letter = 'f' then some '\x0c'
  else if letter = 'r' then some '\r'
  else none

/-- The value of a hexadecimal digit, in either case. -/
def hexValue? (c : Char) : Option Nat :=
  if '0' ≤ c ∧ c ≤ '9' then some (c.toNat - '0'.toNat)
  else if 'a' ≤ c ∧ c ≤ 'f' then some (c.toNat - 'a'.toNat + 10)
  else if 'A' ≤ c ∧ c ≤ 'F' then some (c.toNat - 'A'.toNat + 10)
  else none

/-- The 16-bit unit that four hexadecimal digits stand for. -/
def unit? (a b c d : Char) : Option Nat := do
  let a ← hexValue? a
  let b ← hexValue? b
  let c ← hexValue? c
  let d ← hexValue? d
  return ((a * 16 + b) * 16 + c) * 16 + d

/-- The character that a pair of surrogate units stands for. -/
def ofSurrogates? (high low : Nat) : Option Char :=
  if 0xDC00 ≤ low ∧ low < 0xE000 then
    some (Char.ofNat (0x10000 + (high - 0xD800) * 0x400 + (low - 0xDC00)))
  else none

/-- Reads an escape behind its backslash: the character, and what follows. -/
def readEscape? : List Char → Option (Char × List Char)
  | 'u' :: a :: b :: c :: d :: rest => do
    let unit ← unit? a b c d
    if 0xD800 ≤ unit ∧ unit < 0xDC00 then
      match rest with
      | '\\' :: 'u' :: a :: b :: c :: d :: rest => do
        let low ← unit? a b c d
        let char ← ofSurrogates? unit low
        return (char, rest)
      | _ => none
    else if 0xDC00 ≤ unit ∧ unit < 0xE000 then none
    else return (Char.ofNat unit, rest)
  | letter :: rest => do
    let char ← ofLetter? letter
    return (char, rest)
  | [] => none

/-- Reads one character that stands between quotes: the character, and what follows. -/
def readChar? : List Char → Option (Char × List Char)
  | [] => none
  | c :: rest =>
    if c = '\\' then readEscape? rest
    else if c = '"' ∨ c.toNat < 0x20 then none
    else some (c, rest)

theorem length_lt_of_readEscape? {chars rest : List Char} {c : Char}
    (success : readEscape? chars = some (c, rest)) : rest.length < chars.length := by
  unfold readEscape? at success
  split at success
  · simp only [Option.bind_eq_bind, Option.bind_eq_some_iff] at success
    obtain ⟨unit, _, success⟩ := success
    split at success
    · split at success
      · simp only [Option.bind_eq_some_iff] at success
        obtain ⟨low, _, char, _, success⟩ := success
        cases success
        simp only [List.length_cons]
        omega
      · cases success
    · split at success
      · cases success
      · cases success
        simp only [List.length_cons]
        omega
  · simp only [Option.bind_eq_bind, Option.bind_eq_some_iff] at success
    obtain ⟨char, _, success⟩ := success
    cases success
    simp
  · cases success

theorem length_lt_of_readChar? {chars rest : List Char} {c : Char}
    (success : readChar? chars = some (c, rest)) : rest.length < chars.length := by
  unfold readChar? at success
  split at success
  · cases success
  · split at success
    · have := length_lt_of_readEscape? success
      simp only [List.length_cons]
      omega
    · split at success
      · cases success
      · cases success
        simp

/-- Reads up to the closing quote: the characters before it, and what follows it. -/
def readBody? (chars : List Char) : Option (List Char × List Char) :=
  match chars with
  | [] => none
  | c :: rest =>
    if c = '"' then some ([], rest)
    else
      match read : readChar? (c :: rest) with
      | none => none
      | some (char, left) =>
        have : left.length < (c :: rest).length := length_lt_of_readChar? read
        (readBody? left).map fun (body, left) => (char :: body, left)
termination_by chars.length
decreasing_by assumption

theorem length_lt_of_readBody? {chars body rest : List Char}
    (success : readBody? chars = some (body, rest)) : rest.length < chars.length := by
  fun_induction readBody? chars generalizing body rest with
  | case1 => cases success
  | case2 => cases success; simp
  | case3 => cases success
  | case4 _ _ _ _ _ read _ ih =>
    obtain ⟨⟨_, _⟩, inner, same⟩ := Option.map_eq_some_iff.mp success
    cases same
    exact Nat.lt_trans (ih inner) (length_lt_of_readChar? read)

end Concord.Json.Quoted
