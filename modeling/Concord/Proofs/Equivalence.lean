import Concord.Proofs.StrategyRun

/-! # Equivalence of the strategies

Without a budget, reduction, evaluation and meaning come to the same results and go on forever for
the same programs. With a budget they part, as a step of the machine is not a unit of the other
two. Evaluation and meaning stay together even then, down to the count that they leave.
-/

namespace Concord.Strategy

/-- Without a budget, a statement has the same results under every strategy, faults and their texts
included, and a run under one of them goes on forever when it does so under any other. -/
theorem results_coincide (s : Stmt) (env : Environment) (strategy other : Strategy) :
    (∀ result, strategy.Answers s env result ↔ other.Answers s env result) ∧
      (strategy.Diverges s env .unlimited ↔ other.Diverges s env .unlimited) := by
  have sameResults (result : Result) :
      strategy.Answers s env result ↔ other.Answers s env result :=
    answers_iff_yields.trans answers_iff_yields.symm
  refine ⟨sameResults, ?_⟩
  rw [diverges_unlimited_iff, diverges_unlimited_iff]
  exact forall_congr' fun result => not_congr (sameResults result)

/-- Whatever the gas, evaluation and meaning return the same result and leave the same gas, and one
of them goes on forever when the other does. -/
theorem bigStep_lockstep_denotational (s : Stmt) (env : Environment) (gas : Gas) :
    (∀ result left,
      bigStep.Returns s env gas result left ↔ denotational.Returns s env gas result left) ∧
      (bigStep.Diverges s env gas ↔ denotational.Diverges s env gas) := by
  have sameRuns (fuel : Nat) :
      bigStep.run? fuel s env gas = denotational.run? fuel s env gas :=
    run?_bigStep fuel s env gas
  constructor
  · intro result left
    exact exists_congr fun fuel => by rw [sameRuns]
  · exact forall_congr' fun fuel => by rw [sameRuns]

end Concord.Strategy
