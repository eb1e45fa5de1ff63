import Concord.Expr

/-! # Statements

A statement, run in an environment, yields a new one. `skip` is the only normal form. A block of
statements is a sequence that nests to the right.
-/

namespace Concord

/-- A statement. -/
inductive Stmt where
  | assign (name : String) (value : Expr)
  | skip
  | ifThenElse (condition : Expr) (consequence alternative : Stmt)
  | seq (first second : Stmt)
  | whileDo (condition : Expr) (body : Stmt)
deriving DecidableEq

namespace Stmt

/-- Whether the statement can still take a step. -/
def isReducible : Stmt → Bool
  | skip => false
  | _ => true

/-- The statements one after the other; no statement at all is `skip`. -/
def block : List Stmt → Stmt
  | [] => skip
  | [only] => only
  | first :: rest => seq first (block rest)

def text : Stmt → String
  | assign name value => name ++ " = " ++ value.text
  | skip => "do-nothing"
  | ifThenElse condition consequence alternative =>
    "if (" ++ condition.text ++ ") \x7b" ++ consequence.text ++ "\x7d else \x7b"
      ++ alternative.text ++ "\x7d"
  | seq first second => first.text ++ "; " ++ second.text
  | whileDo condition body => "while (" ++ condition.text ++ ") \x7b" ++ body.text ++ "\x7d"

theorem isReducible_eq_false_iff (s : Stmt) : s.isReducible = false ↔ s = skip := by
  cases s <;> simp [isReducible]

@[simp] theorem block_nil : block [] = skip := rfl

@[simp] theorem block_singleton (s : Stmt) : block [s] = s := rfl

@[simp] theorem block_cons_cons (s t : Stmt) (rest : List Stmt) :
    block (s :: t :: rest) = seq s (block (t :: rest)) := rfl

end Stmt

end Concord
