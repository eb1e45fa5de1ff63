import Concord.Proofs.Noninterference

/-! # What a run leaves alone

All that a run does to its environment is to bind variables that its statement assigns: no binding
is lost, and the other variables keep theirs. `Environment.Frame` says so of two environments. While
a machine reduces a statement, the statement changes as well, and a loop makes it longer each time
that it unrolls. Still no step brings in a variable, so the frame of the first statement holds of
all the states that a machine comes to.
-/

namespace Concord

namespace Environment

/-- Between the two environments nothing has happened but to bindings of the given names. -/
structure Frame (names : List String) (first later : Environment) : Prop where
  /-- What was bound is bound. -/
  keeps (name : String) : (first.get? name).isSome → (later.get? name).isSome
  /-- What is bound was bound, or it is one of the names. -/
  adds (name : String) : (later.get? name).isSome → (first.get? name).isSome ∨ name ∈ names
  /-- Any other variable has the binding that it had, or still none. -/
  unchanged (name : String) : name ∉ names → later.get? name = first.get? name

namespace Frame

variable {names more : List String} {first later last : Environment}

theorem refl (names : List String) (env : Environment) : Frame names env env where
  keeps _ bound := bound
  adds _ bound := .inl bound
  unchanged _ _ := rfl

theorem trans (before : Frame names first later) (onward : Frame names later last) :
    Frame names first last where
  keeps name bound := onward.keeps name (before.keeps name bound)
  adds name bound := by
    obtain earlier | member := onward.adds name bound
    · exact before.adds name earlier
    · exact .inr member
  unchanged name other := (onward.unchanged name other).trans (before.unchanged name other)

theorem mono (frame : Frame names first later) (subset : names ⊆ more) :
    Frame more first later where
  keeps := frame.keeps
  adds name bound := (frame.adds name bound).imp_right fun member => subset member
  unchanged name other := frame.unchanged name fun member => other (subset member)

/-- A binding of one of the names may be put in. -/
theorem insert {name : String} (member : name ∈ names) (env : Environment) (value : Value) :
    Frame names env (env.insert name value) where
  keeps other bound := by
    rw [get?_insert]
    split
    · rfl
    · exact bound
  adds other bound := by
    rw [get?_insert] at bound
    split at bound
    · next same => exact .inr (same ▸ member)
    · exact .inl bound
  unchanged other outside := by
    have differs : other ≠ name := fun same => outside (same ▸ member)
    exact get?_insert_of_ne env value differs

/-- And so may any number of them. -/
theorem overwrite {updates : List (String × Value)} (within : Within names updates)
    (env : Environment) : Frame names env (env.overwrite updates) := by
  induction updates generalizing env with
  | nil => exact .refl names env
  | cons binding rest ih =>
    obtain ⟨member, restWithin⟩ := List.forall_mem_cons.mp within
    exact (Frame.insert member env binding.2).trans (ih restWithin _)

/-- Where none of the names is read, the later environment is as good as the first. -/
theorem agreeOn {read : List String} (frame : Frame names first later)
    (unread : ∀ name ∈ read, name ∉ names) : AgreeOn read first later :=
  fun name member => (frame.unchanged name (unread name member)).symm

end Frame

end Environment

open Environment (AgreeOn Frame)

namespace Stmt

open Rewriting

/-- The later state has no variables but those of the first: its statement reads and assigns none
that the first does not, and its environment differs in none that the first does not assign. -/
structure Confined (first later : Stmt × Environment) : Prop where
  reads : later.1.reads ⊆ first.1.reads
  writes : later.1.writes ⊆ first.1.writes
  frame : Frame first.1.writes first.2 later.2

namespace Confined

theorem refl (state : Stmt × Environment) : Confined state state :=
  ⟨List.Subset.refl _, List.Subset.refl _, .refl _ _⟩

theorem trans {first later last : Stmt × Environment} (before : Confined first later)
    (onward : Confined later last) : Confined first last where
  reads := List.Subset.trans onward.reads before.reads
  writes := List.Subset.trans onward.writes before.writes
  frame := before.frame.trans (onward.frame.mono before.writes)

end Confined

/-- A step stays within the variables of the statement. -/
theorem confined_of_step {first next : Stmt × Environment}
    (stepped : rewriting.step first = .ok next) : Confined first next := by
  obtain ⟨s, env⟩ := first
  have same : AgreeOn s.reads env env := fun _ _ => rfl
  cases reduce_alike same with
  | fault fault failed _ => cases failed.symm.trans stepped
  | step reduct updates within reads writes reduced _ =>
    cases reduced.symm.trans stepped
    exact ⟨reads, writes, .overwrite within env⟩

/-- And so do all states that it leads to. -/
theorem confined_of_after {steps : Nat} {first last : Stmt × Environment}
    (reached : rewriting.after steps first = .ok last) : Confined first last := by
  induction steps generalizing first with
  | zero =>
    cases reached
    exact .refl last
  | succ steps ih =>
    obtain ⟨next, stepped, onward⟩ := after_succ_eq_ok_iff.mp reached
    exact (confined_of_step stepped).trans (ih onward)

end Stmt

namespace Strategy

variable {strategy : Strategy} {s : Stmt} {env final : Environment}

/-- The environment that a run comes to is what bindings of assigned variables make of the first. -/
theorem Bill.frame {units : Nat} (bill : strategy.Bill s env units (.ok final)) :
    Frame s.writes env final := by
  have same : AgreeOn s.reads env env := fun _ _ => rfl
  obtain ⟨_, _, alike⟩ := bill.alike same
  cases alike with
  | finished updates within => exact .overwrite within env

theorem Returns.frame {gas left : Gas} (returned : strategy.Returns s env gas (.ok final) left) :
    Frame s.writes env final := by
  obtain ⟨units, bill⟩ := returned.exists_bill
  exact bill.frame

end Strategy

namespace Stmt

/-- All states on the way of the reduction have no variables but those of the statement, and so do
all states in which a machine is left that has been started on it, whatever has been done with the
machine. The same frame holds of the environment that a run comes to under any strategy, with any
gas. -/
theorem variables_confined (s : Stmt) (env : Environment) :
    (∀ steps state, rewriting.after steps (s, env) = .ok state → Confined (s, env) state) ∧
    (∀ fuel actions replies session,
      (Machine.Session.new s env).performAll fuel actions = some (replies, session) →
      Confined (s, env) session.machine.state) ∧
    ∀ (strategy : Strategy) gas final left,
      strategy.Returns s env gas (.ok final) left → Frame s.writes env final := by
  refine ⟨fun _ _ reached => confined_of_after reached, ?_, fun _ _ _ _ returned => returned.frame⟩
  intro fuel actions replies session performed
  obtain ⟨_, _, reduces, _⟩ := Machine.Session.progress_of_performAll performed
  exact confined_of_after reduces.state

private theorem zero_fits : FitsWord 0 := by decide

private theorem one_fits : FitsWord 1 := by decide

private def copiesUp : Stmt :=
  whileDo (.lessThan (.var "x") (.ofInt 1 one_fits))
    (seq (assign "x" (.add (.var "x") (.ofInt 1 one_fits))) (assign "y" (.var "x")))

private def zeroBesideTrue : Environment :=
  .ofList [("x", .number ⟨0, zero_fits⟩), ("z", .boolean true)]

/-- Eight steps into the loop, when it has unrolled and has bound `x` again, and at the end of its
run, when `y` is bound too, `z` is bound as it was. -/
theorem variables_confined_loop :
    (∃ state, rewriting.after 8 (copiesUp, zeroBesideTrue) = .ok state ∧
      state.1 = seq (assign "y" (.var "x")) copiesUp ∧ state.1.writes ⊆ copiesUp.writes ∧
      state.2.get? "z" = zeroBesideTrue.get? "z") ∧
    ∃ final left, Strategy.bigStep.Returns copiesUp zeroBesideTrue (.limited 9) (.ok final) left ∧
      final.get? "z" = zeroBesideTrue.get? "z" := by
  obtain ⟨onTheWay, _, atTheEnd⟩ := variables_confined copiesUp zeroBesideTrue
  have unassigned : "z" ∉ copiesUp.writes := by decide
  constructor
  · have halfway : rewriting.after 8 (copiesUp, zeroBesideTrue) =
        .ok (seq (assign "y" (.var "x")) copiesUp,
          zeroBesideTrue.insert "x" (.number ⟨1, one_fits⟩)) := rfl
    have confined := onTheWay _ _ halfway
    exact ⟨_, halfway, rfl, confined.writes, confined.frame.unchanged "z" unassigned⟩
  · have bill : Strategy.bigStep.Bill copiesUp zeroBesideTrue 5
        (.ok ((zeroBesideTrue.insert "x" (.number ⟨1, one_fits⟩)).insert "y"
          (.number ⟨1, one_fits⟩))) :=
      ⟨3 + 0 + 1, .again rfl (.inr ⟨_, 1, 1, ⟨rfl, rfl⟩, ⟨rfl, rfl⟩, rfl⟩) (.done rfl), rfl⟩
    have returned : Strategy.bigStep.Returns copiesUp zeroBesideTrue (.limited 9) _
        { used := 5, limit := some 9 } := bill.returns_iff.mpr rfl
    exact ⟨_, _, returned, (atTheEnd _ _ _ _ returned).unchanged "z" unassigned⟩

end Stmt

end Concord
