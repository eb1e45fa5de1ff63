import Concord.Proofs.Session

/-! # Handing a run over

A step of the reduction does not change what a statement comes to: not the environment, not the
fault, and not that it goes on forever. So the state in which a machine stops on its way, for want
of gas or because nobody steps it any further, is as good as the one that it was started in, and any
strategy can take it up from there.
-/

namespace Concord

namespace Stmt

/-- A step changes nothing about what a statement comes to. -/
theorem yields_iff_of_reduce {s : Stmt} {env : Environment} {next : Stmt × Environment}
    (stepped : s.reduce env = .ok next) (result : Result) :
    (∃ units, next.1.Yields next.2 units result) ↔ ∃ units, s.Yields env units result := by
  constructor
  · rintro ⟨units, run⟩
    exact yields_of_reduce stepped run
  · intro runs
    obtain ⟨steps, ended⟩ := (yields_iff_ends s env result).mp runs
    have reached : rewriting.after 1 (s, env) = .ok next := Rewriting.after_succ_of_ok stepped 0
    obtain ⟨rest, _, left⟩ := Rewriting.Ends.of_after reached ended
    exact (yields_iff_ends next.1 next.2 result).mpr ⟨rest, left⟩

/-- Nor does any number of steps. -/
theorem yields_iff_of_after {steps : Nat} {first last : Stmt × Environment}
    (reached : rewriting.after steps first = .ok last) (result : Result) :
    (∃ units, last.1.Yields last.2 units result) ↔
      ∃ units, first.1.Yields first.2 units result := by
  induction steps generalizing first with
  | zero =>
    cases reached
    exact Iff.rfl
  | succ steps ih =>
    obtain ⟨next, stepped, onward⟩ := Rewriting.after_succ_eq_ok_iff.mp reached
    exact (ih onward).trans (yields_iff_of_reduce stepped result)

end Stmt

namespace Strategy

/-- Without a limit, the strategy comes to the same from the one state as direct evaluation comes to
from the other: to the same environment, to the same fault, or to no end. -/
def ComesToTheSame (strategy : Strategy) (last first : Stmt × Environment) : Prop :=
  (∀ result, strategy.Answers last.1 last.2 result ↔ bigStep.Answers first.1 first.2 result) ∧
    (strategy.Diverges last.1 last.2 .unlimited ↔ bigStep.Diverges first.1 first.2 .unlimited)

/-- From a state on the way, every strategy comes to the same as from the first state. -/
theorem comesToTheSame_of_after (strategy : Strategy) {steps : Nat}
    {first last : Stmt × Environment} (reached : Stmt.rewriting.after steps first = .ok last) :
    strategy.ComesToTheSame last first := by
  have sameAnswers (result : Result) :
      strategy.Answers last.1 last.2 result ↔ bigStep.Answers first.1 first.2 result := by
    rw [answers_iff_yields, answers_iff_yields]
    exact Stmt.yields_iff_of_after reached result
  exact ⟨sameAnswers, diverges_unlimited_congr sameAnswers⟩

end Strategy

namespace Machine.Session

/-- Every state on the way of the reduction keeps the meaning of the statement that it started with,
and so does every state in which a machine is left, whatever has been done with it and whether or
not its gas has run out. -/
theorem meaning_kept_on_the_way (s : Stmt) (env : Environment) (strategy : Strategy) :
    (∀ steps state, Stmt.rewriting.after steps (s, env) = .ok state →
      strategy.ComesToTheSame state (s, env)) ∧
    ∀ fuel actions replies session,
      (new s env).performAll fuel actions = some (replies, session) →
      strategy.ComesToTheSame (session.machine.statement, session.machine.environment) (s, env) := by
  constructor
  · intro steps state reached
    exact strategy.comesToTheSame_of_after reached
  · intro fuel actions replies session performed
    obtain ⟨reductions, _, reduces, _⟩ := progress_of_performAll performed
    exact strategy.comesToTheSame_of_after reduces.state

/-- A run that two steps have used up is taken up by the meaning of what is left. -/
theorem meaning_kept_past_limit :
    ∃ session,
      (new (.seq (.assign "x" (.ofInt 1)) (.assign "y" (.ofInt 2))) .empty).performAll 9
          [.limitTo 2, .run] = some ([.done, .ended (.error (.stepLimitExceeded 2))], session) ∧
      session.machine.statement = .assign "y" (.ofInt 2) ∧
      Strategy.denotational.Answers session.machine.statement session.machine.environment
        (.ok (.ofList [("x", .number ⟨1, by decide⟩), ("y", .number ⟨2, by decide⟩)])) := by
  have answered : ((new (.seq (.assign "x" (.ofInt 1)) (.assign "y" (.ofInt 2))) .empty).performAll
        9 [.limitTo 2, .run]).map (fun performed => (performed.1, performed.2.machine.statement)) =
      some ([.done, .ended (.error (.stepLimitExceeded 2))], .assign "y" (.ofInt 2)) := rfl
  simp only [Option.map_eq_some_iff, Prod.mk.injEq] at answered
  obtain ⟨⟨replies, session⟩, performed, rfl, left⟩ := answered
  obtain ⟨_, kept⟩ := meaning_kept_on_the_way _ _ .denotational
  have whole : Strategy.bigStep.Answers (.seq (.assign "x" (.ofInt 1)) (.assign "y" (.ofInt 2)))
      .empty (.ok (.ofList [("x", .number ⟨1, by decide⟩), ("y", .number ⟨2, by decide⟩)])) :=
    Strategy.answers_iff_yields.mpr
      ⟨3, .inr ⟨_, 1, 1, ⟨rfl, rfl⟩, ⟨rfl, rfl⟩, rfl⟩⟩
  exact ⟨session, performed, left, ((kept _ _ _ _ performed).1 _).mpr whole⟩

end Machine.Session

end Concord
