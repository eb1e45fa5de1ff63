import Concord.Proofs.Footprint
import Concord.Proofs.Session

/-! # Two runs of one program

What a program does not read has no part in its run. From two environments that agree on the
variables of its expressions, a run takes the same course under every strategy and with any gas: to
the same fault, to no end, or to an end at which both environments have got the same bindings. Both
runs use the same gas, and the machine makes the same steps.
-/

namespace Concord

open Environment (AgreeOn)

/-- How two runs end alike: with the same fault, or with the same bindings put into the environments
that they have started from, all of them of the given names. -/
inductive EndAlike (names : List String) (left right : Environment) : Result → Result → Prop where
  | fault (fault : Fault) : EndAlike names left right (.error fault) (.error fault)
  | finished (updates : List (String × Value)) (within : Within names updates) :
      EndAlike names left right (.ok (left.overwrite updates)) (.ok (right.overwrite updates))

namespace EndAlike

variable {names inner : List String} {left right : Environment} {result other : Result}

/-- Bindings that are put in before are among those at the end. -/
theorem after {updates : List (String × Value)}
    (alike : EndAlike inner (left.overwrite updates) (right.overwrite updates) result other)
    (within : Within names updates) (subset : inner ⊆ names) :
    EndAlike names left right result other := by
  cases alike with
  | fault fault => exact .fault fault
  | finished later laterWithin =>
    rw [← Environment.overwrite_append, ← Environment.overwrite_append]
    exact .finished (updates ++ later) (within.append (laterWithin.mono subset))

theorem mono (alike : EndAlike inner left right result other) (subset : inner ⊆ names) :
    EndAlike names left right result other :=
  alike.after (.nil names) subset

theorem failures_eq (alike : EndAlike names left right result other) :
    Machine.failures result = Machine.failures other := by
  cases alike <;> rfl

theorem unitsFor_eq (alike : EndAlike names left right result other) (steps : Nat) :
    Machine.unitsFor steps result = Machine.unitsFor steps other := by
  cases alike <;> rfl

end EndAlike

namespace Stmt

open Rewriting

/-- Reductions of a statement from environments that agree on what it reads end alike after the same
steps. -/
theorem ends_alike {s : Stmt} {left right : Environment} {steps : Nat} {result : Result}
    (agree : AgreeOn s.reads left right) (ended : rewriting.Ends (s, left) steps result) :
    ∃ other, rewriting.Ends (s, right) steps other ∧
      EndAlike s.writes left right result other := by
  induction steps generalizing s left right with
  | zero =>
    have stopped := ends_zero_iff.mp ended
    cases result with
    | ok final =>
      cases eq_skip_of_value (stop?_eq_ok_iff.mp stopped)
      exact ⟨_, ends_skip right, .finished [] (.nil _)⟩
    | error fault =>
      obtain ⟨normal, failed⟩ := stop?_eq_error_iff.mp stopped
      cases reduce_alike agree with
      | fault _ failedLeft failedRight =>
        cases failedLeft.symm.trans failed
        have unfinished : rewriting.value? (s, right) = none := by
          simpa [rewriting] using normal
        exact ⟨_, .of_stop (stop?_of_fault unfinished failedRight), .fault fault⟩
      | step _ _ _ _ _ steppedLeft _ => cases steppedLeft.symm.trans failed
  | succ steps ih =>
    obtain ⟨next, stepped, onward⟩ := ends_succ_iff.mp ended
    cases reduce_alike agree with
    | fault _ failedLeft _ => cases failedLeft.symm.trans stepped
    | step reduct updates within reads writes steppedLeft steppedRight =>
      cases steppedLeft.symm.trans stepped
      obtain ⟨other, endedRight, alike⟩ := ih ((agree.mono reads).overwrite updates) onward
      exact ⟨other, endedRight.cons steppedRight, alike.after within writes⟩

/-- The runs of a loop end alike if those of its body do. -/
private theorem iterates_alike {condition : Expr} {body : Stmt} {left right : Environment}
    {units : Nat} {result : Result}
    (bodyAlike : ∀ {left right units result}, AgreeOn body.reads left right →
      body.Yields left units result →
      ∃ other, body.Yields right units other ∧ EndAlike body.writes left right result other)
    (agree : AgreeOn (condition.reads ++ body.reads) left right)
    (run : Iterates condition body.Yields left units result) :
    ∃ other, Iterates condition body.Yields right units other ∧
      EndAlike body.writes left right result other := by
  induction run generalizing right with
  | conditionFault failed =>
    obtain ⟨agreeCondition, _⟩ := AgreeOn.append_iff.mp agree
    rw [Expr.holds_congr agreeCondition] at failed
    exact ⟨_, .conditionFault failed, .fault _⟩
  | done exit =>
    obtain ⟨agreeCondition, _⟩ := AgreeOn.append_iff.mp agree
    rw [Expr.holds_congr agreeCondition] at exit
    exact ⟨_, .done exit, .finished [] (.nil _)⟩
  | bodyFault enter failed =>
    obtain ⟨agreeCondition, agreeBody⟩ := AgreeOn.append_iff.mp agree
    rw [Expr.holds_congr agreeCondition] at enter
    obtain ⟨other, failedRight, alike⟩ := bodyAlike agreeBody failed
    cases alike with
    | fault fault => exact ⟨_, .bodyFault enter failedRight, .fault _⟩
  | again enter iterated _ ih =>
    obtain ⟨agreeCondition, agreeBody⟩ := AgreeOn.append_iff.mp agree
    rw [Expr.holds_congr agreeCondition] at enter
    obtain ⟨other, iteratedRight, alike⟩ := bodyAlike agreeBody iterated
    cases alike with
    | finished updates within =>
      obtain ⟨last, onward, alike⟩ := ih (agree.overwrite updates)
      exact ⟨last, .again enter iteratedRight onward, alike.after within (.refl _)⟩

/-- Runs of a statement from environments that agree on what it reads end alike, for the same
units. -/
theorem Yields.alike {s : Stmt} {left right : Environment} {units : Nat} {result : Result}
    (run : s.Yields left units result) (agree : AgreeOn s.reads left right) :
    ∃ other, s.Yields right units other ∧ EndAlike s.writes left right result other := by
  induction s generalizing left right units result with
  | assign name value =>
    obtain ⟨rfl, rfl⟩ := run
    have same : value.eval left = value.eval right := Expr.eval_congr agree
    refine ⟨_, ⟨rfl, rfl⟩, ?_⟩
    rw [← same]
    cases value.eval left with
    | error fault => exact .fault fault
    | ok v => exact .finished [(name, v)] (by simp [Within, writes])
  | skip =>
    obtain ⟨rfl, rfl⟩ := run
    exact ⟨_, ⟨rfl, rfl⟩, .finished [] (.nil _)⟩
  | ifThenElse condition consequence alternative ihConsequence ihAlternative =>
    obtain ⟨agreeCondition, agreeBranches⟩ := AgreeOn.append_iff.mp agree
    obtain ⟨agreeConsequence, agreeAlternative⟩ := AgreeOn.append_iff.mp agreeBranches
    have same : condition.holds left = condition.holds right := Expr.holds_congr agreeCondition
    obtain ⟨fault, failed, rfl, rfl⟩ | ⟨truth, rest, holds, taken, rfl⟩ :=
      yields_ifThenElse_iff.mp run
    · exact ⟨_, yields_ifThenElse_iff.mpr (.inl ⟨fault, same ▸ failed, rfl, rfl⟩), .fault fault⟩
    · cases truth with
      | true =>
        obtain ⟨other, takenRight, alike⟩ := ihConsequence taken agreeConsequence
        exact ⟨other, yields_ifThenElse_iff.mpr
            (.inr ⟨true, rest, same ▸ holds, takenRight, rfl⟩),
          alike.mono (List.subset_append_left _ _)⟩
      | false =>
        obtain ⟨other, takenRight, alike⟩ := ihAlternative taken agreeAlternative
        exact ⟨other, yields_ifThenElse_iff.mpr
            (.inr ⟨false, rest, same ▸ holds, takenRight, rfl⟩),
          alike.mono (List.subset_append_right _ _)⟩
  | seq first second ihFirst ihSecond =>
    obtain ⟨agreeFirst, agreeSecond⟩ := AgreeOn.append_iff.mp agree
    obtain ⟨before, fault, failed, rfl, rfl⟩ | ⟨middle, before, after, passed, ended, rfl⟩ := run
    · obtain ⟨other, failedRight, alike⟩ := ihFirst failed agreeFirst
      cases alike with
      | fault fault => exact ⟨_, .inl ⟨before, fault, failedRight, rfl, rfl⟩, .fault fault⟩
    · obtain ⟨other, passedRight, alike⟩ := ihFirst passed agreeFirst
      cases alike with
      | finished updates within =>
        obtain ⟨last, endedRight, alike⟩ := ihSecond ended (agreeSecond.overwrite updates)
        refine ⟨last, .inr ⟨_, before, after, passedRight, endedRight, rfl⟩, ?_⟩
        exact alike.after (within.mono (List.subset_append_left _ _))
          (List.subset_append_right _ _)
  | whileDo condition body ih =>
    obtain ⟨rest, iterates, rfl⟩ := run
    have bodyAlike {left right : Environment} {units : Nat} {result : Result}
        (agree : AgreeOn body.reads left right) (run : body.Yields left units result) :=
      ih run agree
    obtain ⟨other, iteratesRight, alike⟩ := iterates_alike bodyAlike agree iterates
    exact ⟨other, ⟨rest, iteratesRight, rfl⟩, alike⟩

end Stmt

/-- A run uses one unit of gas for each step that it counts, and one for a failing step. -/
theorem Machine.used_of_run {machine next : Machine} {fuel : Nat} {trace left : Trace}
    {result : Result} (ran : machine.run fuel trace = some (result, next, left)) :
    next.gas.used + machine.steps =
      machine.gas.used + next.steps + .ofNat (failures result) := by
  obtain ⟨reductions, last, _, reduces, uses, stops⟩ := progress_of_finish ran
  obtain ⟨kept, paid⟩ := stops.progress
  have gas := uses.trans paid
  have steps := (reduces.trans kept).steps
  unfold Uses at gas
  rw [gas, steps, Nat.add_zero, UInt64.ofNat_add]
  grind

namespace Strategy

variable {strategy : Strategy} {s : Stmt} {env left right : Environment} {gas : Gas}

/-- The bill of a run is the same from environments that agree on what is read. -/
theorem Bill.alike {units : Nat} {result : Result} (bill : strategy.Bill s left units result)
    (agree : AgreeOn s.reads left right) :
    ∃ other, strategy.Bill s right units other ∧ EndAlike s.writes left right result other := by
  cases strategy with
  | smallStep =>
    obtain ⟨steps, ended, rfl⟩ := bill
    obtain ⟨other, endedRight, alike⟩ := Stmt.ends_alike agree ended
    exact ⟨other, ⟨steps, endedRight, alike.unitsFor_eq steps⟩, alike⟩
  | bigStep => exact Stmt.Yields.alike bill agree
  | denotational => exact Stmt.Yields.alike bill agree

/-- From environments that agree on what is read, runs with the same gas end alike and leave the
same gas, or both have no end. -/
theorem runs_alike (agree : AgreeOn s.reads left right) (strategy : Strategy) (gas : Gas) :
    strategy.Diverges s left gas ∧ strategy.Diverges s right gas ∨
      ∃ result other after, strategy.Returns s left gas result after ∧
        strategy.Returns s right gas other after ∧ EndAlike s.writes left right result other := by
  obtain ⟨units, result, bill⟩ | starves := bill_or_starves strategy s left
  · obtain ⟨other, billRight, alike⟩ := bill.alike agree
    rcases charged : gas.charge units with ⟨fault | _, after⟩
    · exact .inr ⟨_, _, after, bill.returns_iff.mpr (Gas.pay_of_error charged _),
        billRight.returns_iff.mpr (Gas.pay_of_error charged _), .fault fault⟩
    · exact .inr ⟨result, other, after, bill.returns_iff.mpr (Gas.pay_of_ok charged _),
        billRight.returns_iff.mpr (Gas.pay_of_ok charged _), alike⟩
  · have starvesRight : strategy.Starves s right := by
      obtain ⟨units, result, bill⟩ | starvesRight := bill_or_starves strategy s right
      · obtain ⟨other, billLeft, _⟩ := bill.alike agree.symm
        have answer := answers_iff_bill.mpr ⟨units, billLeft⟩
        exact absurd answer (diverges_unlimited_iff.mp starves.diverges_unlimited _)
      · exact starvesRight
    by_cases refuses : ∃ units fault after, gas.charge units = (.error fault, after)
    · obtain ⟨units, fault, after, refused⟩ := refuses
      exact .inr ⟨_, _, after, starves.returns refused, starvesRight.returns refused,
        .fault fault⟩
    · have granted (units : Nat) (fault : Fault) (after : Gas) :
          gas.charge units ≠ (.error fault, after) :=
        fun refused => refuses ⟨units, fault, after, refused⟩
      exact .inl ⟨starves.diverges granted, starvesRight.diverges granted⟩

/-- What a machine comes to, the strategy returns, wherever the trace of the machine goes. -/
theorem returns_of_run {machine next : Machine} {fuel : Nat} {trace later : Trace}
    {result : Result} (started : machine.state = (s, env))
    (ran : machine.run fuel trace = some (result, next, later)) :
    smallStep.Returns s env machine.gas result next.gas := by
  let fresh : Machine := { statement := s, environment := env, gas := machine.gas }
  have shown := machine.run_shown_eq fresh started rfl fuel trace {}
  rw [ran] at shown
  exact ⟨fuel, shown.symm⟩

/-- What the strategy returns, a machine comes to, whatever sink and step count it has and wherever
its trace goes. -/
theorem exists_run_of_returns {machine : Machine} {result : Result} {left : Gas}
    (started : machine.state = (s, env))
    (returned : smallStep.Returns s env machine.gas result left) :
    ∃ fuel, ∀ trace, ∃ next later, machine.run fuel trace = some (result, next, later) ∧
      next.gas = left := by
  obtain ⟨fuel, ran⟩ := returned
  refine ⟨fuel, fun trace => ?_⟩
  let fresh : Machine := { statement := s, environment := env, gas := machine.gas }
  have shown := machine.run_shown_eq fresh started rfl fuel trace {}
  obtain ⟨⟨own, next, later⟩, ranHere, same⟩ := Option.map_eq_some_iff.mp (shown.trans ran)
  obtain ⟨rfl, leaves⟩ := Prod.mk.inj same
  exact ⟨next, later, ranHere, leaves⟩

/-- Two environments that agree on the variables in the expressions of a statement cannot be told
apart by its run, under any strategy and with any gas. Both runs fail with the same fault, or both
have no end, or the same bindings have been put into both environments, all of them of variables
that the statement assigns. They leave the same gas, and machines count the same steps. -/
theorem noninterference (agree : AgreeOn s.reads left right) :
    (∀ (strategy : Strategy) gas,
      strategy.Diverges s left gas ∧ strategy.Diverges s right gas ∨
      ∃ result other after, strategy.Returns s left gas result after ∧
        strategy.Returns s right gas other after ∧ EndAlike s.writes left right result other) ∧
    ∀ {machine other : Machine}, machine.state = (s, left) → other.state = (s, right) →
      machine.gas = other.gas → machine.steps = other.steps →
      ∀ {fuel trace result next later otherFuel otherTrace otherResult otherNext otherLater},
        machine.run fuel trace = some (result, next, later) →
        other.run otherFuel otherTrace = some (otherResult, otherNext, otherLater) →
        next.steps = otherNext.steps := by
  refine ⟨runs_alike agree, ?_⟩
  intro machine other started otherStarted sameGas sameSteps fuel trace result next later
    otherFuel otherTrace otherResult otherNext otherLater ran otherRan
  have returned := returns_of_run started ran
  have otherReturned := returns_of_run otherStarted otherRan
  rw [← sameGas] at otherReturned
  obtain ⟨diverges, _⟩ | ⟨_, _, after, returns, otherReturns, alike⟩ :=
    runs_alike agree smallStep machine.gas
  · exact absurd returned (diverges_iff.mp diverges _ _)
  · obtain ⟨rfl, leaves⟩ := returned.unique returns
    obtain ⟨rfl, otherLeaves⟩ := otherReturned.unique otherReturns
    have used := Machine.used_of_run ran
    have otherUsed := Machine.used_of_run otherRan
    rw [leaves] at used
    rw [otherLeaves, ← sameGas, ← sameSteps, ← alike.failures_eq, used] at otherUsed
    simpa using otherUsed

private theorem fitsWord_one : FitsWord 1 := by decide

private def countsToOne : Stmt :=
  .whileDo (.lessThan (.var "x") (.ofInt 1 fitsWord_one))
    (.assign "x" (.add (.var "x") (.ofInt 1 fitsWord_one)))

private def zeroAlone : Environment := .ofList [("x", .number ⟨0, by decide⟩)]

private def zeroAndTrue : Environment := zeroAlone.insert "y" (.boolean true)

/-- The loop comes from `{x: 0}` and from `{x: 0, y: true}` to the same bindings of `x`, for the
same gas and after the same steps. -/
theorem noninterference_loop :
    zeroAlone ≠ zeroAndTrue ∧ AgreeOn countsToOne.reads zeroAlone zeroAndTrue ∧
      (∃ updates after, Within ["x"] updates ∧
        bigStep.Returns countsToOne zeroAlone (.limited 9) (.ok (zeroAlone.overwrite updates))
          after ∧
        bigStep.Returns countsToOne zeroAndTrue (.limited 9) (.ok (zeroAndTrue.overwrite updates))
          after) ∧
      ∃ next otherNext later otherLater result otherResult,
        Machine.run 30 { statement := countsToOne, environment := zeroAlone } {} =
          some (result, next, later) ∧
        Machine.run 30 { statement := countsToOne, environment := zeroAndTrue } {} =
          some (otherResult, otherNext, otherLater) ∧
        next.steps = otherNext.steps := by
  have agree : AgreeOn countsToOne.reads zeroAlone zeroAndTrue := by
    intro name member
    have same : name = "x" := by simpa [countsToOne, Stmt.reads, Expr.reads] using member
    subst same
    rfl
  obtain ⟨ends, steps⟩ := noninterference agree
  refine ⟨by decide, agree, ?_, ?_⟩
  · have bill : bigStep.Bill countsToOne zeroAlone 3
        (.ok (zeroAlone.insert "x" (.number ⟨1, by decide⟩))) :=
      ⟨1 + 0 + 1, .again rfl ⟨rfl, rfl⟩ (.done rfl), rfl⟩
    have returned : bigStep.Returns countsToOne zeroAlone (.limited 9) _
        { used := 3, limit := some 9 } := bill.returns_iff.mpr rfl
    obtain ⟨diverges, _⟩ | ⟨_, _, after, returns, otherReturns, alike⟩ := ends bigStep (.limited 9)
    · exact absurd returned (diverges_iff.mp diverges _ _)
    · obtain ⟨rfl, _⟩ := returned.unique returns
      generalize same : zeroAlone.insert "x" _ = final at returns alike
      cases alike with
      | finished updates within => exact ⟨updates, after, within, returns, otherReturns⟩
  · have ran (env : Environment) (same : env = zeroAlone ∨ env = zeroAndTrue) :
        (Machine.run 30 { statement := countsToOne, environment := env } {}).isSome = true := by
      obtain rfl | rfl := same <;> rfl
    obtain ⟨⟨result, next, later⟩, ranLeft⟩ := Option.isSome_iff_exists.mp (ran _ (.inl rfl))
    obtain ⟨⟨otherResult, otherNext, otherLater⟩, ranRight⟩ :=
      Option.isSome_iff_exists.mp (ran _ (.inr rfl))
    exact ⟨next, otherNext, later, otherLater, result, otherResult, ranLeft, ranRight,
      steps (by rfl) (by rfl) (by rfl) (by rfl) ranLeft ranRight⟩

end Strategy

end Concord
