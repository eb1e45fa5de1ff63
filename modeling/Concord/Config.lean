import Concord.Strategy

/-! # Configuration

What is to be run and how it is to be shown.
-/

namespace Concord

/-- The settings of a run of the program. -/
structure Config where
  /-- The names of the samples to run, in order; no name means all samples. -/
  scenarios : List String := []
  strategies : List Strategy := Strategy.all
  /-- The step budget of every run, if one is asked for. -/
  maxSteps : Option UInt64 := none
  /-- Whether the machine's trace is shown. -/
  showTrace : Bool := true
  /-- Whether reports are written as JSON. -/
  json : Bool := false
  /-- Whether the samples are listed and not run. -/
  list : Bool := false
deriving DecidableEq

namespace Config

/-- The step budget of programs that never end on their own, when none is asked for. -/
def divergentBudget : UInt64 := 10000

def budgetFor (config : Config) (diverges : Bool) : Option UInt64 :=
  match config.maxSteps with
  | some limit => some limit
  | none => if diverges then some divergentBudget else none

theorem budgetFor_eq_none_iff (config : Config) (diverges : Bool) :
    config.budgetFor diverges = none ↔ config.maxSteps = none ∧ diverges = false := by
  cases asked : config.maxSteps <;> cases diverges <;> simp [budgetFor, asked]

theorem budgetFor_eq_some_iff (config : Config) (diverges : Bool) (limit : UInt64) :
    config.budgetFor diverges = some limit ↔
      config.maxSteps = some limit ∨
        config.maxSteps = none ∧ diverges = true ∧ limit = divergentBudget := by
  cases asked : config.maxSteps <;> cases diverges <;> simp [budgetFor, asked, eq_comm]

end Config

end Concord
