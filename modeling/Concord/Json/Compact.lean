import Concord.Json.Basic
import Concord.Json.Token

/-! # Compact JSON text

A tree is written without any blanks: `tokens` lists its words and `compact` spells them one after
the other.
-/

namespace Concord.Json

mutual

def tokens : Json → List Token
  | null => [.null]
  | bool b => [.bool b]
  | integer n => [.integer n]
  | decimal numeral => [.decimal numeral]
  | string s => [.string s]
  | array [] => [.openBracket, .closeBracket]
  | array (item :: items) => .openBracket :: (item.tokens ++ itemTokens items)
  | object [] => [.openBrace, .closeBrace]
  | object ((key, value) :: members) =>
    .openBrace :: .string key :: .colon :: (value.tokens ++ memberTokens members)

/-- The tokens that follow an item of an array, up to the closing bracket. -/
def itemTokens : List Json → List Token
  | [] => [.closeBracket]
  | item :: items => .comma :: (item.tokens ++ itemTokens items)

/-- The tokens that follow a member of an object, up to the closing brace. -/
def memberTokens : List (String × Json) → List Token
  | [] => [.closeBrace]
  | (key, value) :: members =>
    .comma :: .string key :: .colon :: (value.tokens ++ memberTokens members)

end

/-- The tree as text without blanks. -/
def compact (tree : Json) : String :=
  String.ofList (tree.tokens.flatMap Token.spell)

end Concord.Json
