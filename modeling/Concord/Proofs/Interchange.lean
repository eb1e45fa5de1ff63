import Concord.Proofs.StrategyRun

/-! # Interchangeable programs

Two programs that come to the same from every environment can stand for each other anywhere in a
larger program: in a branch, on either side of a sequence, in the body of a loop. `Stmt.Refines` is
half of this, in which the one program comes to whatever the other one comes to. Every constructor
of statements keeps it. For loops that is an induction on the iterations, as what stands in the body
may fail in a later one, or may itself have no end.
-/

namespace Concord

namespace Stmt

/-- A statement with a hole in it, in which another statement can stand. -/
inductive Context where
  | hole
  | consequence (condition : Expr) (inner : Context) (otherwise : Stmt)
  | alternative (condition : Expr) (taken : Stmt) (inner : Context)
  | first (inner : Context) (after : Stmt)
  | second (before : Stmt) (inner : Context)
  | body (condition : Expr) (inner : Context)

def Context.fill : Context → Stmt → Stmt
  | hole, s => s
  | consequence condition inner otherwise, s => ifThenElse condition (inner.fill s) otherwise
  | alternative condition taken inner, s => ifThenElse condition taken (inner.fill s)
  | first inner after, s => seq (inner.fill s) after
  | second before inner, s => seq before (inner.fill s)
  | body condition inner, s => whileDo condition (inner.fill s)

/-- From every environment, the other statement comes to whatever the statement comes to. -/
def Refines (s other : Stmt) : Prop :=
  ∀ env result, (∃ units, s.Yields env units result) → ∃ units, other.Yields env units result

namespace Refines

variable {s other next otherNext : Stmt}

theorem refl (s : Stmt) : s.Refines s :=
  fun _ _ runs => runs

/-- Every constructor of statements keeps refinement. -/
theorem ifThenElse (consequence : s.Refines other) (condition : Expr)
    (alternative : next.Refines otherNext) :
    (Stmt.ifThenElse condition s next).Refines (.ifThenElse condition other otherNext) := by
  rintro env result ⟨units, run⟩
  obtain ⟨fault, failed, rfl, rfl⟩ | ⟨truth, rest, holds, branch, rfl⟩ :=
    yields_ifThenElse_iff.mp run
  · exact ⟨_, yields_ifThenElse_iff.mpr (.inl ⟨fault, failed, rfl, rfl⟩)⟩
  · have refined : ∃ more, (if truth then other else otherNext).Yields env more result := by
      cases truth with
      | true => exact consequence env result ⟨rest, branch⟩
      | false => exact alternative env result ⟨rest, branch⟩
    obtain ⟨more, branch⟩ := refined
    exact ⟨_, yields_ifThenElse_iff.mpr (.inr ⟨truth, more, holds, branch, rfl⟩)⟩

theorem seq (first : s.Refines other) (second : next.Refines otherNext) :
    (Stmt.seq s next).Refines (.seq other otherNext) := by
  rintro env result ⟨units, run⟩
  obtain ⟨before, fault, failed, rfl, rfl⟩ | ⟨middle, before, after, passed, ended, rfl⟩ := run
  · obtain ⟨more, failed⟩ := first env _ ⟨before, failed⟩
    exact ⟨_, .inl ⟨more, fault, failed, rfl, rfl⟩⟩
  · obtain ⟨more, passed⟩ := first env _ ⟨before, passed⟩
    obtain ⟨rest, ended⟩ := second middle result ⟨after, ended⟩
    exact ⟨_, .inr ⟨middle, more, rest, passed, ended, rfl⟩⟩

/-- The iterations of a loop are refined one by one. -/
private theorem iterates {condition : Expr} {env : Environment} {units : Nat} {result : Result}
    (body : s.Refines other) (run : Iterates condition s.Yields env units result) :
    ∃ more, Iterates condition other.Yields env more result := by
  induction run with
  | conditionFault failed => exact ⟨_, .conditionFault failed⟩
  | done exit => exact ⟨_, .done exit⟩
  | bodyFault enter failed =>
    obtain ⟨more, failed⟩ := body _ _ ⟨_, failed⟩
    exact ⟨_, .bodyFault enter failed⟩
  | again enter iterated _ ih =>
    obtain ⟨more, iterated⟩ := body _ _ ⟨_, iterated⟩
    obtain ⟨rest, onward⟩ := ih
    exact ⟨_, .again enter iterated onward⟩

theorem whileDo (body : s.Refines other) (condition : Expr) :
    (Stmt.whileDo condition s).Refines (.whileDo condition other) := by
  rintro env result ⟨units, rest, run, rfl⟩
  obtain ⟨more, run⟩ := body.iterates run
  exact ⟨_, more, run, rfl⟩

/-- So every context keeps it. -/
theorem fill (refines : s.Refines other) (context : Context) :
    (context.fill s).Refines (context.fill other) := by
  induction context with
  | hole => exact refines
  | consequence condition inner otherwise ih => exact ih.ifThenElse condition (refl otherwise)
  | alternative condition taken inner ih => exact (refl taken).ifThenElse condition ih
  | first inner after ih => exact ih.seq (refl after)
  | second before inner ih => exact (refl before).seq ih
  | body condition inner ih => exact ih.whileDo condition

end Refines

end Stmt

namespace Strategy

/-- From every environment and without a limit, both statements come to the same under the strategy:
to the same environment, to the same fault, or to no end. -/
def SameOutcome (strategy : Strategy) (s other : Stmt) : Prop :=
  ∀ env, (∀ result, strategy.Answers s env result ↔ strategy.Answers other env result) ∧
    (strategy.Diverges s env .unlimited ↔ strategy.Diverges other env .unlimited)

variable {strategy : Strategy} {s other : Stmt}

/-- It is enough that the answers are the same. -/
theorem sameOutcome_of_answers
    (same : ∀ env result, strategy.Answers s env result ↔ strategy.Answers other env result) :
    strategy.SameOutcome s other :=
  fun env => ⟨same env, diverges_unlimited_congr (same env)⟩

/-- Which strategy it is makes no difference. -/
theorem sameOutcome_iff_refines :
    strategy.SameOutcome s other ↔ s.Refines other ∧ other.Refines s := by
  constructor
  · intro same
    constructor
    · intro env result runs
      exact answers_iff_yields.mp (((same env).1 result).mp (answers_iff_yields.mpr runs))
    · intro env result runs
      exact answers_iff_yields.mp (((same env).1 result).mpr (answers_iff_yields.mpr runs))
  · rintro ⟨there, back⟩
    refine sameOutcome_of_answers fun env result => ?_
    rw [answers_iff_yields, answers_iff_yields]
    exact ⟨there env result, back env result⟩

namespace SameOutcome

variable {next : Stmt}

theorem refl (strategy : Strategy) (s : Stmt) : strategy.SameOutcome s s :=
  sameOutcome_of_answers fun _ _ => Iff.rfl

theorem symm (same : strategy.SameOutcome s other) : strategy.SameOutcome other s :=
  sameOutcome_of_answers fun env result => ((same env).1 result).symm

theorem trans (same : strategy.SameOutcome s other) (onward : strategy.SameOutcome other next) :
    strategy.SameOutcome s next :=
  sameOutcome_of_answers fun env result => ((same env).1 result).trans ((onward env).1 result)

instance : Trans (SameOutcome strategy) (SameOutcome strategy) (SameOutcome strategy) where
  trans := trans

/-- Both parts of a sequence can be replaced at once. -/
theorem seq {otherNext : Stmt} (first : strategy.SameOutcome s other)
    (second : strategy.SameOutcome next otherNext) :
    strategy.SameOutcome (.seq s next) (.seq other otherNext) := by
  obtain ⟨there, back⟩ := sameOutcome_iff_refines.mp first
  obtain ⟨thereNext, backNext⟩ := sameOutcome_iff_refines.mp second
  exact sameOutcome_iff_refines.mpr ⟨there.seq thereNext, back.seq backNext⟩

end SameOutcome

/-- Expressions that have the same value everywhere, or fail alike, can be assigned for each
other. -/
theorem sameOutcome_assign (strategy : Strategy) (name : String) {value other : Expr}
    (same : ∀ env, value.eval env = other.eval env) :
    strategy.SameOutcome (.assign name value) (.assign name other) := by
  have refines {value other : Expr} (same : ∀ env, value.eval env = other.eval env) :
      (Stmt.assign name value).Refines (.assign name other) := by
    rintro env result ⟨units, rfl, rfl⟩
    exact ⟨1, rfl, by rw [same env]⟩
  exact sameOutcome_iff_refines.mpr ⟨refines same, refines fun env => (same env).symm⟩

/-- Statements with the same outcome from every environment are interchangeable: whatever stands
around them, the programs have the same outcome from every environment, under every strategy. -/
theorem sameOutcome_in_context {given : Strategy} {s other : Stmt}
    (same : given.SameOutcome s other) (strategy : Strategy) (context : Stmt.Context) :
    strategy.SameOutcome (context.fill s) (context.fill other) := by
  obtain ⟨there, back⟩ := sameOutcome_iff_refines.mp same
  exact sameOutcome_iff_refines.mpr ⟨there.fill context, back.fill context⟩

/-- Under reduction, `while (x < 2) {x = 1 + 1}` comes to the same as `while (x < 2) {x = 2}`, which
takes fewer steps. -/
theorem sameOutcome_folded_in_loop :
    smallStep.SameOutcome
      (.whileDo (.lessThan (.var "x") (.ofInt 2)) (.assign "x" (.add (.ofInt 1) (.ofInt 1))))
      (.whileDo (.lessThan (.var "x") (.ofInt 2)) (.assign "x" (.ofInt 2))) := by
  have folded : bigStep.SameOutcome (.assign "x" (.add (.ofInt 1) (.ofInt 1)))
      (.assign "x" (.ofInt 2)) := bigStep.sameOutcome_assign "x" fun _ => rfl
  exact sameOutcome_in_context folded smallStep (.body (.lessThan (.var "x") (.ofInt 2)) .hole)

end Strategy

end Concord
