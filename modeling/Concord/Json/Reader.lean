import Concord.Json.Basic
import Concord.Json.Token

/-! # Reading JSON trees

A reader takes the tokens of a text one by one. It remembers the arrays and objects that are open
around its place, innermost first, so no depth of nesting is too deep, and each token either moves
it on or is refused there.
-/

namespace Concord.Json

/-- An array or object that is still open, with what stands before the place being read. -/
inductive Open where
  /-- The items before this one, last first. -/
  | array (before : List Json)
  /-- The members before this one, last first, and the key whose value is being read. -/
  | object (before : List (String × Json)) (key : String)

/-- A place between two tokens. -/
inductive Place where
  /-- A value begins here. -/
  | value (around : List Open)
  /-- Behind an opening bracket. -/
  | firstItem (around : List Open)
  /-- Behind an opening brace. -/
  | firstMember (around : List Open)
  /-- Behind a comma in an object. -/
  | nextMember (around : List Open) (before : List (String × Json))
  /-- Behind a key. -/
  | colon (around : List Open) (before : List (String × Json)) (key : String)
  /-- Behind a complete value. -/
  | done (around : List Open) (tree : Json)

namespace Place

/-- The place behind the first token of a value. -/
def begin? (around : List Open) : Token → Option Place
  | .openBracket => some (.firstItem around)
  | .openBrace => some (.firstMember around)
  | .null => some (.done around .null)
  | .bool b => some (.done around (.bool b))
  | .integer n => some (.done around (.integer n))
  | .decimal numeral => some (.done around (.decimal numeral))
  | .string s => some (.done around (.string s))
  | _ => none

/-- The place behind a token. -/
def next? : Place → Token → Option Place
  | value around, token => begin? around token
  | firstItem around, .closeBracket => some (.done around (.array []))
  | firstItem around, token => begin? (.array [] :: around) token
  | firstMember around, .closeBrace => some (.done around (.object []))
  | firstMember around, .string key => some (.colon around [] key)
  | nextMember around before, .string key => some (.colon around before key)
  | colon around before key, .colon => some (.value (.object before key :: around))
  | done (.array before :: around) tree, .comma => some (.value (.array (tree :: before) :: around))
  | done (.array before :: around) tree, .closeBracket =>
    some (.done around (.array (tree :: before).reverse))
  | done (.object before key :: around) tree, .comma =>
    some (.nextMember around ((key, tree) :: before))
  | done (.object before key :: around) tree, .closeBrace =>
    some (.done around (.object ((key, tree) :: before).reverse))
  | _, _ => none

end Place

/-- The tree that a list of tokens spells out, all of them. -/
def ofTokens? (tokens : List Token) : Option Json :=
  match tokens.foldlM Place.next? (.value []) with
  | some (.done [] tree) => some tree
  | _ => none

def parse? (text : String) : Option Json :=
  (Token.scan? text.toList).bind ofTokens?

end Concord.Json
