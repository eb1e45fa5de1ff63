/-! # Strategies

The three ways to execute a statement, under the names by which they are asked for and reported.
-/

namespace Concord

/-- A way to execute a statement. -/
inductive Strategy where
  /-- Reduce the statement one step at a time. -/
  | smallStep
  /-- Evaluate the statement by walking over it. -/
  | bigStep
  /-- Build the statement's meaning as a function, then apply it. -/
  | denotational
deriving DecidableEq

namespace Strategy

/-- All strategies, in the order in which they are run and reported. -/
def all : List Strategy := [smallStep, bigStep, denotational]

def name : Strategy → String
  | smallStep => "small-step"
  | bigStep => "big-step"
  | denotational => "denotational"

def ofName? (name : String) : Option Strategy :=
  all.find? fun strategy => strategy.name = name

@[simp] theorem ofName?_name (strategy : Strategy) : ofName? strategy.name = some strategy := by
  cases strategy <;> decide

theorem ofName?_eq_some_iff (name : String) (strategy : Strategy) :
    ofName? name = some strategy ↔ name = strategy.name := by
  constructor
  · intro found
    simpa [eq_comm] using List.find?_some found
  · rintro rfl
    exact ofName?_name strategy

end Strategy

end Concord
