import Concord.Metered

/-! # Meanings

The meaning of an expression is a function from environments to values, and that of a statement a
function from environments to environments. A meaning is built once, from the meanings of the parts,
and holds nothing of the program text; it can then be applied to any environment any number of
times. It uses gas by the same rule as direct evaluation.
-/

namespace Concord

/-- The meaning of an expression. -/
structure ExprMeaning where
  apply : Environment → Except Fault Value

/-- The meaning of a statement; the fuel bounds the iterations of each loop entry. -/
structure StmtMeaning where
  apply (fuel : Nat) (env : Environment) : Metered Environment

/-- Meanings are opaque: they show what they are and no more. -/
def ExprMeaning.debugText (_ : ExprMeaning) : String := "CompiledExpr(..)"

def StmtMeaning.debugText (_ : StmtMeaning) : String := "CompiledStmt(..)"

/-- The meaning of an operator application: left operand first. -/
def ExprMeaning.binary (op : Operator) (left right : ExprMeaning) : ExprMeaning where
  apply env := do
    let a ← left.apply env
    let b ← right.apply env
    op.apply a b

/-- The meaning of an expression, built from the meanings of its parts. -/
def Expr.meaning : Expr → ExprMeaning
  | .literal value => ⟨fun _ => .ok value⟩
  | .var name => ⟨fun env => env.lookup name⟩
  | .binary op left right => .binary op left.meaning right.meaning

/-- Whether the meaning of a condition is true. -/
def ExprMeaning.holds (condition : ExprMeaning) (env : Environment) : Except Fault Bool := do
  (← condition.apply env).asCondition

namespace StmtMeaning

def assign (name : String) (value : ExprMeaning) : StmtMeaning where
  apply _ env := do
    Metered.tick
    return env.insert name (← .lift (value.apply env))

def skip : StmtMeaning where
  apply _ env := do
    Metered.tick
    return env

def ifThenElse (condition : ExprMeaning) (consequence alternative : StmtMeaning) : StmtMeaning where
  apply fuel env := do
    Metered.tick
    if ← .lift (condition.holds env) then
      consequence.apply fuel env
    else
      alternative.apply fuel env

/-- Applies `body` for as long as `condition` is true. -/
def iterate (condition : ExprMeaning) (body : Environment → Metered Environment) :
    Nat → Environment → Metered Environment
  | 0, _ => .starved
  | fuel + 1, env => do
    if ← .lift (condition.holds env) then
      Metered.tick
      let env ← body env
      Metered.report (.iterated none env)
      iterate condition body fuel env
    else
      return env

/-- Applies a meaning again and again. -/
def whileDo (condition : ExprMeaning) (body : StmtMeaning) : StmtMeaning where
  apply fuel env := do
    Metered.tick
    iterate condition (body.apply fuel) fuel env

/-- Applies the steps of a block in order; each joint behind a step uses a unit of gas. -/
def applySteps (fuel : Nat) : List StmtMeaning → Environment → Metered Environment
  | [], env => return env
  | step :: rest, env => do
    Metered.tick
    let env ← step.apply fuel env
    applySteps fuel rest env

/-- A block as one flat list of steps and a last one. -/
def block (steps : List StmtMeaning) (last : StmtMeaning) : StmtMeaning where
  apply fuel env := do
    let env ← applySteps fuel steps env
    last.apply fuel env

/-- A block without steps is its last meaning. -/
@[simp] theorem block_nil (last : StmtMeaning) : block [] last = last := by
  cases last
  simp [block, applySteps]

theorem apply_block_cons (fuel : Nat) (step : StmtMeaning) (rest : List StmtMeaning)
    (last : StmtMeaning) (env : Environment) :
    (block (step :: rest) last).apply fuel env = (do
      Metered.tick
      let env ← step.apply fuel env
      (block rest last).apply fuel env) := by
  simp [block, applySteps]

end StmtMeaning

/-- The meanings of the steps along a statement's right spine, and the meaning of its last one. -/
def Stmt.spineMeanings : Stmt → List StmtMeaning × StmtMeaning
  | .assign name value => ([], .assign name value.meaning)
  | .skip => ([], .skip)
  | .ifThenElse condition consequence alternative =>
    let whenTrue := consequence.spineMeanings
    let whenFalse := alternative.spineMeanings
    ([], .ifThenElse condition.meaning (.block whenTrue.1 whenTrue.2)
      (.block whenFalse.1 whenFalse.2))
  | .seq first second =>
    let step := first.spineMeanings
    let rest := second.spineMeanings
    (.block step.1 step.2 :: rest.1, rest.2)
  | .whileDo condition body =>
    let inner := body.spineMeanings
    ([], .whileDo condition.meaning (.block inner.1 inner.2))

def Stmt.meaning (s : Stmt) : StmtMeaning :=
  .block s.spineMeanings.1 s.spineMeanings.2

namespace Stmt

theorem meaning_assign (name : String) (value : Expr) :
    (assign name value).meaning = .assign name value.meaning := by
  simp [meaning, spineMeanings]

theorem meaning_skip : skip.meaning = .skip := by
  simp [meaning, spineMeanings]

theorem meaning_ifThenElse (condition : Expr) (consequence alternative : Stmt) :
    (ifThenElse condition consequence alternative).meaning =
      .ifThenElse condition.meaning consequence.meaning alternative.meaning := by
  simp [meaning, spineMeanings]

theorem meaning_whileDo (condition : Expr) (body : Stmt) :
    (whileDo condition body).meaning = .whileDo condition.meaning body.meaning := by
  simp [meaning, spineMeanings]

/-- However it nests, a sequence uses one unit, then applies its parts one after the other. -/
theorem apply_meaning_seq (fuel : Nat) (first second : Stmt) (env : Environment) :
    (seq first second).meaning.apply fuel env = (do
      Metered.tick
      let env ← first.meaning.apply fuel env
      second.meaning.apply fuel env) := by
  rw [meaning, spineMeanings, StmtMeaning.apply_block_cons]
  rfl

end Stmt

end Concord
