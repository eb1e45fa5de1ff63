import Concord.Metered

/-! # Direct evaluation

Evaluation maps a statement and an environment to the final environment by walking over the
statement, without reducing it. Each statement uses one unit of gas, and so does each iteration of
a loop. Blocks are walked along their right spine, so that a long block nests no deeper than a short
one. Fuel bounds the iterations of each loop entry and nothing else.
-/

namespace Concord

/-- The value of an expression: left operand, right operand, operator. -/
def Expr.eval : Expr → Environment → Except Fault Value
  | .literal value, _ => .ok value
  | .var name, env => env.lookup name
  | .binary op left right, env => do
    let a ← left.eval env
    let b ← right.eval env
    op.apply a b

def Expr.holds (condition : Expr) (env : Environment) : Except Fault Bool := do
  (← condition.eval env).asCondition

/-- Runs `body` for as long as `condition` holds, after `count` iterations already made. -/
def Stmt.evalLoop (condition : Expr) (body : Environment → Metered Environment) :
    Nat → Environment → UInt64 → Metered Environment
  | 0, _, _ => .starved
  | fuel + 1, env, count => do
    if ← .lift (condition.holds env) then
      Metered.tick
      let env ← body env
      Metered.report (.iterated (some (count + 1)) env)
      evalLoop condition body fuel env (count + 1)
    else
      return env

mutual

/-- The environment after a statement. -/
def Stmt.eval (fuel : Nat) (s : Stmt) (env : Environment) : Metered Environment := do
  Metered.tick
  match s with
  | .assign name value => return env.insert name (← .lift (value.eval env))
  | .skip => return env
  | .ifThenElse condition consequence alternative =>
    if ← .lift (condition.holds env) then
      consequence.eval fuel env
    else
      alternative.eval fuel env
  | .seq first second => do
    let env ← first.eval fuel env
    second.evalSpine fuel env
  | .whileDo condition body => Stmt.evalLoop condition (body.eval fuel) fuel env 0
termination_by 2 * sizeOf s

/-- The environment after the rest of a block: each joint of the spine uses its unit of gas. -/
def Stmt.evalSpine (fuel : Nat) (s : Stmt) (env : Environment) : Metered Environment :=
  match s with
  | .seq first second => do
    Metered.tick
    let env ← first.eval fuel env
    second.evalSpine fuel env
  | last => last.eval fuel env
termination_by 2 * sizeOf s + 1

end

namespace Stmt

/-- Walking the rest of a block is evaluating it. -/
theorem evalSpine_eq_eval (fuel : Nat) (s : Stmt) (env : Environment) :
    s.evalSpine fuel env = s.eval fuel env := by
  cases s <;> simp [evalSpine, eval]

theorem eval_assign (fuel : Nat) (name : String) (value : Expr) (env : Environment) :
    (assign name value).eval fuel env = (do
      Metered.tick
      return env.insert name (← .lift (value.eval env))) := by
  rw [eval]

theorem eval_skip (fuel : Nat) (env : Environment) :
    skip.eval fuel env = (do
      Metered.tick
      return env) := by
  rw [eval]

theorem eval_ifThenElse (fuel : Nat) (condition : Expr) (consequence alternative : Stmt)
    (env : Environment) :
    (ifThenElse condition consequence alternative).eval fuel env = (do
      Metered.tick
      if ← .lift (condition.holds env) then
        consequence.eval fuel env
      else
        alternative.eval fuel env) := by
  rw [eval]

/-- However it nests, a sequence uses one unit, then runs its parts one after the other. -/
theorem eval_seq (fuel : Nat) (first second : Stmt) (env : Environment) :
    (seq first second).eval fuel env = (do
      Metered.tick
      let env ← first.eval fuel env
      second.eval fuel env) := by
  rw [eval]
  simp only [evalSpine_eq_eval]

theorem eval_whileDo (fuel : Nat) (condition : Expr) (body : Stmt) (env : Environment) :
    (whileDo condition body).eval fuel env = (do
      Metered.tick
      evalLoop condition (body.eval fuel) fuel env 0) := by
  rw [eval]

end Stmt

/-- What a statement ends in when nothing limits it. -/
def Stmt.evaluate? (fuel : Nat) (s : Stmt) (env : Environment) : Option Result :=
  ((s.eval fuel env).run {}).map Prod.fst

end Concord
