/-! # JSON trees

The trees that JSON texts stand for. The members of an object keep their order and may repeat a key.
A number is an integer, or any other numeral (with a fraction, an exponent, or a minus sign before
zero) kept as it was written.
-/

namespace Concord

/-- A JSON tree. -/
inductive Json where
  | null
  | bool (b : Bool)
  | integer (n : Int)
  /-- A numeral that is no plain integer, kept as written. -/
  | decimal (numeral : String)
  | string (s : String)
  | array (items : List Json)
  | object (members : List (String × Json))

end Concord
