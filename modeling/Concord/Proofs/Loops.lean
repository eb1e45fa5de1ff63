import Concord.Proofs.Cost
import Concord.Proofs.ExactArithmetic
import Concord.Proofs.Handover
import Concord.Proofs.Interchange

/-! # Laws of loops

A loop comes to the same as the conditional that the machine makes of it in one step. The other two
strategies go around a loop in place and never make that conditional; given to them, it costs one
unit more than the loop. Whatever the iterations of a loop keep still holds at its end, where the
condition is false: this is the rule by which a program with loops is shown correct.
-/

namespace Concord

/-- Conditions hold or not by their value. -/
theorem Expr.holds_eq_ok_iff {condition : Expr} {env : Environment} {truth : Bool} :
    condition.holds env = .ok truth ↔ condition.eval env = .ok (.boolean truth) := by
  simp only [holds, bind_eq_ok_iff, Value.asCondition_eq_ok_iff, exists_eq_right]

namespace Stmt

/-- The loop with its first test taken out of it. -/
def unrolled (condition : Expr) (body : Stmt) : Stmt :=
  ifThenElse condition (seq body (whileDo condition body)) skip

variable {condition : Expr} {body : Stmt} {env final : Environment} {steps units : ℕ}

/-- Unrolling is the first step of the machine. -/
theorem reduce_whileDo (condition : Expr) (body : Stmt) (env : Environment) :
    (whileDo condition body).reduce env = .ok (unrolled condition body, env) := rfl

theorem takes_unrolled_iff :
    (unrolled condition body).Takes env steps final ↔
      (whileDo condition body).Takes env (steps + 1) final := by
  rw [takes_iff_ends, takes_iff_ends, Rewriting.ends_succ_iff]
  constructor
  · intro ended
    exact ⟨_, reduce_whileDo condition body env, ended⟩
  · rintro ⟨next, stepped, ended⟩
    cases stepped
    exact ended

/-- The conditional has a unit of its own. With a first iteration, the unit of the iteration goes to
the sequence, and the loop that is left pays for its statement once more; without one, `skip` pays
in the place of the loop. -/
theorem yields_unrolled_iff :
    (unrolled condition body).Yields env (units + 1) (.ok final) ↔
      (whileDo condition body).Yields env units (.ok final) := by
  constructor
  · intro run
    obtain ⟨_, _, _, ended⟩ | ⟨truth, rest, holds, branch, same⟩ := yields_ifThenElse_iff.mp run
    · cases ended
    · obtain rfl := Nat.succ.inj same
      cases truth with
      | true =>
        obtain ⟨middle, before, after, passed, ⟨onward, iterates, rfl⟩, rfl⟩ :=
          yields_seq_ok_iff.mp branch
        exact ⟨_, .again holds passed iterates, by omega⟩
      | false =>
        obtain ⟨rfl, ended⟩ := branch
        cases ended
        exact ⟨0, .done holds, rfl⟩
  · rintro ⟨rest, iterates, rfl⟩
    refine yields_ifThenElse_iff.mpr (.inr ?_)
    cases iterates with
    | done exit => exact ⟨false, 1, exit, ⟨rfl, rfl⟩, rfl⟩
    | again enter iterated onward =>
      refine ⟨true, _, enter, yields_seq_ok_iff.mpr ⟨_, _, _, iterated, ⟨_, onward, rfl⟩, rfl⟩, ?_⟩
      omega

/-- What every iteration keeps, a loop keeps, and it is over only where its condition is false. -/
theorem kept_of_iterates {Invariant : Environment → Prop}
    (kept : ∀ {env next units}, Invariant env → condition.holds env = .ok true →
      body.Yields env units (.ok next) → Invariant next)
    (start : Invariant env) (run : Iterates condition body.Yields env units (.ok final)) :
    Invariant final ∧ condition.holds final = .ok false := by
  generalize ending : (.ok final : Result) = result at run
  induction run with
  | conditionFault _ => cases ending
  | done exit =>
    cases ending
    exact ⟨start, exit⟩
  | bodyFault _ _ => cases ending
  | again enter iterated _ ih => exact ih (kept start enter iterated) ending

end Stmt

namespace Strategy

variable {condition : Expr} {body : Stmt} {env final : Environment} {steps units : ℕ}

/-- The machine takes a step to unroll a loop. For the other two strategies, an unrolled loop has
one unit more to pay for. -/
theorem cost_unrolled_iff :
    Cost (.unrolled condition body) env final steps (units + 1) ↔
      Cost (.whileDo condition body) env final (steps + 1) units := by
  rw [cost_iff, cost_iff, Stmt.takes_unrolled_iff, Stmt.yields_unrolled_iff]

/-- A loop and its unrolling have the same outcome from every environment. When they come to an
environment, the unrolling costs one step less than the loop, and one unit more. -/
theorem loop_unrolls (strategy : Strategy) (condition : Expr) (body : Stmt) :
    strategy.SameOutcome (.whileDo condition body) (.unrolled condition body) ∧
      ∀ env final, strategy.Answers (.whileDo condition body) env (.ok final) →
        ∃ steps units, Cost (.whileDo condition body) env final (steps + 1) units ∧
          Cost (.unrolled condition body) env final steps (units + 1) := by
  constructor
  · refine sameOutcome_of_answers fun env result => ?_
    rw [answers_iff_yields, answers_iff_yields]
    exact (Stmt.yields_iff_of_reduce (Stmt.reduce_whileDo condition body env) result).symm
  · intro env final answer
    obtain ⟨steps, units, cost⟩ := answer.cost
    obtain ⟨rounds, _, count⟩ := (cost.law steps).mpr rfl
    obtain ⟨fewer, rfl⟩ : ∃ fewer, steps = fewer + 1 :=
      Nat.exists_eq_add_one_of_ne_zero (by omega)
    exact ⟨fewer, units, cost, cost_unrolled_iff.mpr cost⟩

/-- From `{x: true}`, the loop `while (x) {x = false}` takes eight steps and three units, and
`if (x) {x = false; while (x) {x = false}} else {do-nothing}` takes seven steps and four units. -/
theorem loop_unrolls_switched_off :
    ∃ final,
      Cost (.whileDo (.var "x") (.assign "x" (.literal (.boolean false))))
        (.ofList [("x", .boolean true)]) final 8 3 ∧
      Cost (.ifThenElse (.var "x")
          (.seq (.assign "x" (.literal (.boolean false)))
            (.whileDo (.var "x") (.assign "x" (.literal (.boolean false)))))
          .skip)
        (.ofList [("x", .boolean true)]) final 7 4 := by
  let loop := Stmt.whileDo (.var "x") (.assign "x" (.literal (.boolean false)))
  obtain ⟨final, takes, run⟩ : ∃ final, loop.Takes (.ofList [("x", .boolean true)]) 8 final ∧
      loop.Yields (.ofList [("x", .boolean true)]) 3 (.ok final) :=
    ⟨_, ⟨[1], .again rfl ⟨rfl, _, rfl, rfl⟩ (.done rfl), rfl⟩,
      1 + 0 + 1, .again rfl ⟨rfl, rfl⟩ (.done rfl), rfl⟩
  obtain ⟨_, costs⟩ := loop_unrolls bigStep (.var "x") (.assign "x" (.literal (.boolean false)))
  obtain ⟨fewer, units, whole, apart⟩ := costs _ final (answers_iff_yields.mpr ⟨3, run⟩)
  have bill : bigStep.Bill loop (.ofList [("x", .boolean true)]) 3 (.ok final) := run
  obtain rfl : fewer = 7 := Nat.succ.inj ((whole.law 8).mp takes).symm
  obtain rfl : units = 3 := by exact_mod_cast whole.evaluation.unique bill.threshold
  exact ⟨final, whole, apart⟩

/-- The invariant rule. What is kept by the body, run where the condition is true, is kept by every
run of the loop that comes to an environment, under every strategy and with every gas, and there the
condition is false. -/
theorem loop_keeps_invariant {given : Strategy} {Invariant : Environment → Prop}
    (kept : ∀ env next, Invariant env → condition.eval env = .ok (.boolean true) →
      given.Answers body env (.ok next) → Invariant next)
    {strategy : Strategy} {gas left : Gas} (start : Invariant env)
    (returned : strategy.Returns (.whileDo condition body) env gas (.ok final) left) :
    Invariant final ∧ condition.eval final = .ok (.boolean false) := by
  obtain ⟨_, _, run, _⟩ := bill_iff_yields.mp returned.exists_bill
  have iterationKeeps {env next : Environment} {units : ℕ} (holds : Invariant env)
      (enter : condition.holds env = .ok true) (iterated : body.Yields env units (.ok next)) :
      Invariant next :=
    kept env next holds (Expr.holds_eq_ok_iff.mp enter) (answers_iff_yields.mpr ⟨units, iterated⟩)
  obtain ⟨holds, exit⟩ := Stmt.kept_of_iterates iterationKeeps start run
  exact ⟨holds, Expr.holds_eq_ok_iff.mp exit⟩

private theorem one_fits_word : FitsWord 1 := by decide

private theorem three_fits_word : FitsWord 3 := by decide

private def countsToThree : Stmt :=
  .whileDo (.lessThan (.var "x") (.ofInt 3 three_fits_word))
    (.assign "x" (.add (.var "x") (.ofInt 1 one_fits_word)))

/-- `x` is a number, and the loop is not past its end. -/
private def AtMostThree (env : Environment) : Prop :=
  ∃ n : Number, env.lookup "x" = .ok (.number n) ∧ n.val ≤ 3

/-- An operator between `x` and a literal works on the numbers that they are. -/
private theorem eval_binary_of_lookup {env : Environment} {n : Number}
    (bound : env.lookup "x" = .ok (.number n)) (op : Operator) (other : Number) :
    (Expr.binary op (.var "x") (.literal (.number other))).eval env = op.onNumbers n other := by
  have left : (Expr.var "x").eval env = .ok (.number n) := bound
  rw [Expr.eval, left]
  rfl

/-- Where the condition is true, one more is within the bound again. -/
private theorem atMostThree_of_increment {env next : Environment} (start : AtMostThree env)
    (enter : (Expr.lessThan (.var "x") (.ofInt 3 three_fits_word)).eval env = .ok (.boolean true))
    (iterated : bigStep.Answers (.assign "x" (.add (.var "x") (.ofInt 1 one_fits_word))) env
      (.ok next)) : AtMostThree next := by
  obtain ⟨n, bound, _⟩ := start
  rw [eval_binary_of_lookup bound, Operator.onNumbers_eq_ok_iff] at enter
  have below : n.val < 3 := by simpa [Operator.exact, Value.exact] using enter
  obtain ⟨_, _, ended⟩ := answers_iff_yields.mp iterated
  obtain ⟨value, evaluated, rfl⟩ := map_eq_ok_iff.mp ended.symm
  rw [eval_binary_of_lookup bound, Operator.onNumbers_eq_ok_iff] at evaluated
  cases value with
  | boolean truth => simp [Operator.exact, Value.exact] at evaluated
  | number sum =>
    have summed : n.val + 1 = sum.val := by simpa [Operator.exact, Value.exact] using evaluated
    exact ⟨sum, (Environment.lookup_eq_ok_iff _ _ _).mpr (Environment.get?_insert_self _ _ _),
      by omega⟩

/-- The machine comes from `{x: 0}` to the end of the loop within thirty steps. There `x` is a
number that is at most three and not below three. -/
theorem loop_keeps_invariant_counting :
    ∃ final left,
      smallStep.Returns countsToThree (.ofList [("x", .number ⟨0, by decide⟩)]) (.limited 30)
        (.ok final) left ∧
      ∃ n : Number, final.lookup "x" = .ok (.number n) ∧ n.val = 3 := by
  obtain ⟨final, takes⟩ : ∃ final,
      countsToThree.Takes (.ofList [("x", .number ⟨0, by decide⟩)]) 28 final :=
    ⟨_, [3, 3, 3], .again rfl ⟨rfl, _, rfl, rfl⟩ (.again rfl ⟨rfl, _, rfl, rfl⟩
      (.again rfl ⟨rfl, _, rfl, rfl⟩ (.done rfl))), rfl⟩
  have bill : smallStep.Bill countsToThree (.ofList [("x", .number ⟨0, by decide⟩)]) 28
      (.ok final) := ⟨28, takes.ends, rfl⟩
  have returned : smallStep.Returns countsToThree (.ofList [("x", .number ⟨0, by decide⟩)])
      (.limited 30) (.ok final) { used := 28, limit := some 30 } := bill.returns_iff.mpr rfl
  have start : AtMostThree (.ofList [("x", .number ⟨0, by decide⟩)]) := ⟨_, rfl, by decide⟩
  obtain ⟨⟨n, bound, most⟩, exit⟩ := loop_keeps_invariant
    (fun _ _ start enter iterated => atMostThree_of_increment start enter iterated) start returned
  rw [eval_binary_of_lookup bound, Operator.onNumbers_eq_ok_iff] at exit
  have least : ¬ n.val < 3 := by simpa [Operator.exact, Value.exact] using exit
  exact ⟨final, _, returned, n, bound, by omega⟩

end Strategy

end Concord
