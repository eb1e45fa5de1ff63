import Concord.Environment.Basic
import Concord.Stmt

/-! # One-step reduction

`Expr.reduce` and `Stmt.reduce` each make exactly one elementary step. Operands are reduced
strictly from left to right, and an operator is applied once both of its operands are literals. A
loop is never iterated: it unrolls into one test that comes back to the loop after the body.
-/

namespace Concord

def Expr.reduce : Expr → Environment → Except Fault Expr
  | .literal value, _ => .error (.irreducible (Expr.literal value).text)
  | .var name, env => do return .literal (← env.lookup name)
  | .binary op (.literal left) (.literal right), _ => do return .literal (← op.apply left right)
  | .binary op (.literal left) right, env => do
    return .binary op (.literal left) (← right.reduce env)
  | .binary op left right, env => do return .binary op (← left.reduce env) right

/-- One step of a statement, with the environment after it. -/
def Stmt.reduce : Stmt → Environment → Except Fault (Stmt × Environment)
  | .skip, _ => .error (.irreducible Stmt.skip.text)
  | .assign name (.literal value), env => .ok (.skip, env.insert name value)
  | .assign name value, env => do return (.assign name (← value.reduce env), env)
  | .ifThenElse (.literal value) consequence alternative, env => do
    return (if ← value.asCondition then consequence else alternative, env)
  | .ifThenElse condition consequence alternative, env => do
    return (.ifThenElse (← condition.reduce env) consequence alternative, env)
  | .seq .skip second, env => .ok (second, env)
  | .seq first second, env => do
    let (first, env) ← first.reduce env
    return (.seq first second, env)
  | .whileDo condition body, env =>
    .ok (.ifThenElse condition (.seq body (.whileDo condition body)) .skip, env)

end Concord
