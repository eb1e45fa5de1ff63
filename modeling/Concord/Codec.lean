import Concord.Environment.Basic
import Concord.Json.Compact
import Concord.Json.Reader
import Concord.Stmt

/-! # Programs as JSON

The JSON form of values, expressions, statements and environments. A value is a bare number or
boolean. Every other node is an object with one member, named for the kind of node; only `skip` is a
bare string. An environment is an object with its names in order. Reading is strict: one member and
no other, arrays of the exact length, integers that are numbers of the language.
-/

namespace Concord

def Value.toJson : Value → Json
  | .number n => .integer n.val
  | .boolean b => .bool b

def Value.ofJson? : Json → Option Value
  | .integer n => (Number.ofInt? n).map .number
  | .bool b => some (.boolean b)
  | _ => none

/-- The name of the member that holds an operator's operands. -/
def Operator.tag : Operator → String
  | .add => "Add"
  | .multiply => "Multiply"
  | .lessThan => "LessThan"

def Operator.ofTag? (tag : String) : Option Operator :=
  if tag = "Add" then some .add
  else if tag = "Multiply" then some .multiply
  else if tag = "LessThan" then some .lessThan
  else none

def Expr.toJson : Expr → Json
  | .literal value => .object [("Literal", value.toJson)]
  | .var name => .object [("Variable", .string name)]
  | .binary op left right => .object [(op.tag, .array [left.toJson, right.toJson])]

def Expr.ofJson? : Json → Option Expr
  | .object [("Literal", value)] => (Value.ofJson? value).map .literal
  | .object [("Variable", .string name)] => some (.var name)
  | .object [(tag, .array [left, right])] => do
    let op ← Operator.ofTag? tag
    let left ← ofJson? left
    let right ← ofJson? right
    return .binary op left right
  | _ => none

def Stmt.toJson : Stmt → Json
  | .assign name value => .object [("Assign", .array [.string name, value.toJson])]
  | .skip => .string "DoNothing"
  | .ifThenElse condition consequence alternative =>
    .object [("If", .array [condition.toJson, consequence.toJson, alternative.toJson])]
  | .seq first second => .object [("Sequence", .array [first.toJson, second.toJson])]
  | .whileDo condition body => .object [("While", .array [condition.toJson, body.toJson])]

def Stmt.ofJson? : Json → Option Stmt
  | .string "DoNothing" => some .skip
  | .object [("DoNothing", .null)] => some .skip
  | .object [("Assign", .array [.string name, value])] =>
    (Expr.ofJson? value).map (.assign name)
  | .object [("If", .array [condition, consequence, alternative])] => do
    let condition ← Expr.ofJson? condition
    let consequence ← ofJson? consequence
    let alternative ← ofJson? alternative
    return .ifThenElse condition consequence alternative
  | .object [("Sequence", .array [first, second])] => do
    let first ← ofJson? first
    let second ← ofJson? second
    return .seq first second
  | .object [("While", .array [condition, body])] => do
    let condition ← Expr.ofJson? condition
    let body ← ofJson? body
    return .whileDo condition body
  | _ => none

def Environment.toJson (env : Environment) : Json :=
  .object (env.toList.map fun (name, value) => (name, value.toJson))

/-- The environment of a JSON form; of two members with one name the later one counts. -/
def Environment.ofJson? : Json → Option Environment
  | .object members => do
    let bindings ← members.mapM fun (name, tree) => do
      let value ← Value.ofJson? tree
      return (name, value)
    return ofList bindings
  | _ => none

end Concord
