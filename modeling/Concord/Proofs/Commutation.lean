import Concord.Proofs.Cost
import Concord.Proofs.Frame

/-! # Statements that can change places

Two statements are independent when neither assigns what the other reads or assigns. The first of
them leaves alone what the second has to do with, so the second runs as if it were alone and puts in
the same bindings, and the other way round. Bindings of different variables can be put in in any
order. So a sequence of the two comes to the same environment in either order, for the same gas and
after the same steps.
-/

namespace Concord

open Environment (AgreeOn Frame)

namespace Environment

variable {names others : List String}

/-- Bindings of some names and of other names can be put in in any order. -/
theorem overwrite_comm {updates later : List (String × Value)} (within : Within names updates)
    (laterWithin : Within others later) (apart : ∀ name ∈ names, name ∉ others)
    (env : Environment) :
    (env.overwrite updates).overwrite later = (env.overwrite later).overwrite updates := by
  refine ext_get? fun name => ?_
  by_cases member : name ∈ names
  · have afterwards := (Frame.overwrite laterWithin (env.overwrite updates)).unchanged name
      (apart name member)
    have alone : AgreeOn [name] env (env.overwrite later) :=
      (Frame.overwrite laterWithin env).agreeOn (by simpa using apart name member)
    rw [afterwards]
    exact alone.overwrite updates name (List.mem_singleton_self name)
  · have afterwards := (Frame.overwrite within (env.overwrite later)).unchanged name member
    have alone : AgreeOn [name] (env.overwrite updates) env :=
      ((Frame.overwrite within env).agreeOn (by simpa using member)).symm
    rw [afterwards]
    exact alone.overwrite later name (List.mem_singleton_self name)

end Environment

/-- Neither statement assigns a variable that the other assigns or reads. -/
structure Stmt.Independent (first second : Stmt) : Prop where
  /-- No variable is assigned by both. -/
  apart : ∀ name ∈ first.writes, name ∉ second.writes
  /-- The second reads nothing that the first assigns. -/
  forwards : ∀ name ∈ first.writes, name ∉ second.reads
  /-- The first reads nothing that the second assigns. -/
  backwards : ∀ name ∈ second.writes, name ∉ first.reads

theorem Stmt.Independent.symm {first second : Stmt} (independent : first.Independent second) :
    second.Independent first where
  apart name member assigned := independent.apart name assigned member
  forwards := independent.backwards
  backwards := independent.forwards

namespace Strategy

variable {strategy : Strategy} {first second : Stmt} {env final : Environment}

/-- The bill of independent statements does not depend on their order. -/
theorem Bill.commute {units : ℕ} (independent : first.Independent second)
    (bill : strategy.Bill (.seq first second) env units (.ok final)) :
    strategy.Bill (.seq second first) env units (.ok final) := by
  obtain ⟨middle, before, after, billFirst, billSecond, rfl⟩ := bill_seq_iff.mp bill
  have unseen : AgreeOn second.reads middle env :=
    (billFirst.frame.agreeOn fun name read assigned => independent.forwards name assigned read).symm
  obtain ⟨_, billSecondAlone, alike⟩ := billSecond.alike unseen
  cases alike with
  | finished later laterWithin =>
    have unseenToo : AgreeOn first.reads env (env.overwrite later) :=
      billSecondAlone.frame.agreeOn fun name read assigned =>
        independent.backwards name assigned read
    obtain ⟨_, billFirstLater, alike⟩ := billFirst.alike unseenToo
    cases alike with
    | finished updates within =>
      rw [Environment.overwrite_comm within laterWithin independent.apart]
      exact bill_seq_iff.mpr ⟨_, after, before, billSecondAlone, billFirstLater, by omega⟩

/-- Nor does what they come to with any gas, as long as they come to an environment. -/
theorem Returns.commute {gas left : Gas} (independent : first.Independent second)
    (returned : strategy.Returns (.seq first second) env gas (.ok final) left) :
    strategy.Returns (.seq second first) env gas (.ok final) left := by
  obtain ⟨units, bill⟩ := returned.exists_bill
  exact (bill.commute independent).returns_iff.mpr (bill.returns_iff.mp returned)

/-- A sequence of independent statements comes to an environment when it does so in the other order,
under every strategy and with any gas. It comes to the same one and leaves the same gas. Of two
machines that are alike but for the order of the statements, the one comes to the end when the other
does, with the same count of gas and of steps. -/
theorem independent_commute (independent : first.Independent second) (env : Environment) :
    (∀ (strategy : Strategy) gas final left,
      strategy.Returns (.seq first second) env gas (.ok final) left ↔
        strategy.Returns (.seq second first) env gas (.ok final) left) ∧
    ∀ machine other : Machine, machine.state = (.seq first second, env) →
      other.state = (.seq second first, env) → machine.gas = other.gas →
      machine.steps = other.steps →
      ∀ {fuel trace final next later},
        machine.run fuel trace = some (.ok final, next, later) →
        ∃ otherFuel, ∀ otherTrace, ∃ otherNext otherLater,
          other.run otherFuel otherTrace = some (.ok final, otherNext, otherLater) ∧
          otherNext.gas = next.gas ∧ otherNext.steps = next.steps := by
  constructor
  · intro strategy gas final left
    exact ⟨fun returned => returned.commute independent,
      fun returned => returned.commute independent.symm⟩
  · intro machine other started otherStarted sameGas sameSteps fuel trace final next later ran
    have returned := (returns_of_run started ran).commute independent
    rw [sameGas] at returned
    obtain ⟨otherFuel, runs⟩ := exists_run_of_returns otherStarted returned
    refine ⟨otherFuel, fun otherTrace => ?_⟩
    obtain ⟨otherNext, otherLater, otherRan, leaves⟩ := runs otherTrace
    have used := Machine.used_of_run ran
    have otherUsed := Machine.used_of_run otherRan
    rw [leaves, ← sameGas, ← sameSteps, used] at otherUsed
    exact ⟨otherNext, otherLater, otherRan, leaves, by simpa using otherUsed.symm⟩

private theorem number_zero_fits : FitsWord 0 := by decide

private theorem number_one_fits : FitsWord 1 := by decide

private def countsUp : Stmt :=
  .whileDo (.lessThan (.var "x") (.ofInt 1 number_one_fits))
    (.assign "x" (.add (.var "x") (.ofInt 1 number_one_fits)))

private def copies : Stmt := .assign "y" (.var "z")

private def xBesideZ : Environment :=
  .ofList [("x", .number ⟨0, number_zero_fits⟩), ("z", .boolean true)]

private def bothDone : Environment :=
  (xBesideZ.insert "x" (.number ⟨1, number_one_fits⟩)).insert "y" (.boolean true)

/-- The loop over `x` and `y = z` come to the same environment in either order, for five units of
gas, and a machine makes the same steps. -/
theorem independent_commute_loop :
    countsUp.Independent copies ∧
      bigStep.Returns (.seq copies countsUp) xBesideZ (.limited 5) (.ok bothDone)
        { used := 5, limit := some 5 } ∧
      ∃ next later otherFuel otherNext otherLater,
        Machine.run 30 { statement := .seq countsUp copies, environment := xBesideZ } {} =
          some (.ok bothDone, next, later) ∧
        Machine.run otherFuel { statement := .seq copies countsUp, environment := xBesideZ } {} =
          some (.ok bothDone, otherNext, otherLater) ∧
        otherNext.steps = next.steps := by
  have independent : countsUp.Independent copies := ⟨by decide, by decide, by decide⟩
  obtain ⟨ends, runs⟩ := independent_commute independent xBesideZ
  refine ⟨independent, ?_, ?_⟩
  · have bill : bigStep.Bill (.seq countsUp copies) xBesideZ 5 (.ok bothDone) :=
      bill_seq_iff.mpr ⟨_, 3, 1, ⟨1 + 0 + 1, .again rfl ⟨rfl, rfl⟩ (.done rfl), rfl⟩,
        ⟨rfl, rfl⟩, rfl⟩
    exact (ends _ _ _ _).mp (bill.returns_iff.mpr rfl)
  · have ended :
        (Machine.run 30 { statement := .seq countsUp copies, environment := xBesideZ } {}).map
          (fun ended => ended.1) = some (.ok bothDone) := rfl
    obtain ⟨⟨_, next, later⟩, ran, rfl⟩ := Option.map_eq_some_iff.mp ended
    obtain ⟨otherFuel, others⟩ :=
      runs { statement := .seq countsUp copies, environment := xBesideZ }
        { statement := .seq copies countsUp, environment := xBesideZ } rfl rfl rfl rfl ran
    obtain ⟨otherNext, otherLater, otherRan, _, steps⟩ := others {}
    exact ⟨next, later, otherFuel, otherNext, otherLater, ran, otherRan, steps⟩

end Strategy

end Concord
