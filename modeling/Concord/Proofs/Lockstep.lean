import Concord.Denotation
import Concord.Evaluation

/-! # Evaluation and meaning in lockstep

Direct evaluation and the meaning of a statement count their units at the same moments and report
the same iterations, with every fuel and from every meter. The events that they report differ in one
thing: only evaluation numbers the iterations. `Metered.Alike` compares two computations up to that.
-/

namespace Concord

/-- The environments that loop iterations have led to, oldest first. -/
def Meter.iterations (meter : Meter) : List Environment :=
  meter.events.toList.filterMap Event.iteration?

/-- What a meter shows when the numbers of iterations are left out. -/
def Meter.shown (meter : Meter) : Gas × List Environment :=
  (meter.gas, meter.iterations)

theorem Meter.shown_push (meter : Meter) (event : Event) :
    ({ meter with events := meter.events.push event } : Meter).shown =
      (meter.gas, meter.iterations ++ event.iteration?.toList) := by
  cases found : event.iteration? <;> simp [shown, iterations, found]

namespace Metered

variable {α β : Type}

/-- From meters that show the same, both computations end alike, or both want for fuel. -/
def Alike (first second : Metered α) : Prop :=
  ∀ left right : Meter, left.shown = right.shown →
    (first.run left).map (fun (result, meter) => (result, meter.shown)) =
      (second.run right).map (fun (result, meter) => (result, meter.shown))

theorem Alike.pure (a : α) : (pure a : Metered α).Alike (pure a) := by
  intro left right same
  simp only [run_pure, Option.map_some, same]

theorem Alike.lift (result : Except Fault α) : (lift result).Alike (lift result) := by
  intro left right same
  simp only [run_lift, Option.map_some, same]

theorem Alike.starved : (starved : Metered α).Alike starved :=
  fun _ _ _ => rfl

theorem Alike.tick : tick.Alike tick := by
  intro left right same
  obtain ⟨gas, iterations⟩ := Prod.mk.inj same
  simp only [run_tick, Option.map_some, gas, Meter.shown, Meter.iterations] at iterations ⊢
  rw [iterations]

/-- Events about the same iteration, or about none, are reported alike. -/
theorem Alike.report {first second : Event} (same : first.iteration? = second.iteration?) :
    (report first).Alike (report second) := by
  intro left right shown
  obtain ⟨gas, iterations⟩ := Prod.mk.inj shown
  simp only [run_report, Option.map_some, Meter.shown_push]
  rw [gas, iterations, same]

theorem Alike.bind {first second : Metered α} {firstNext secondNext : α → Metered β}
    (alike : first.Alike second) (onward : ∀ a, (firstNext a).Alike (secondNext a)) :
    (first >>= firstNext).Alike (second >>= secondNext) := by
  intro left right same
  have ended := alike left right same
  rw [run_bind, run_bind]
  rcases ranFirst : first.run left with _ | ⟨fault | a, firstMeter⟩ <;>
    rcases ranSecond : second.run right with _ | ⟨other | b, secondMeter⟩ <;>
    simp only [ranFirst, ranSecond, Option.map_some, Option.map_none, Option.some.injEq,
      Prod.mk.injEq, reduceCtorEq, false_and, Except.error.injEq, Except.ok.injEq] at ended ⊢
  · exact ended
  · obtain ⟨rfl, shown⟩ := ended
    exact onward a _ _ shown

/-- Computations that are alike end alike from the same gas. -/
theorem Alike.gas {first second : Metered α} (alike : first.Alike second) (meter : Meter) :
    (first.run meter).map (fun (result, left) => (result, left.gas)) =
      (second.run meter).map (fun (result, left) => (result, left.gas)) := by
  have shown := congrArg (Option.map fun (result, shown) => (result, shown.1)) (alike meter meter rfl)
  simpa only [Option.map_map, Function.comp_def, Meter.shown] using shown

end Metered

/-- The meaning of an expression is its value in every environment. -/
theorem Expr.apply_meaning (e : Expr) (env : Environment) : e.meaning.apply env = e.eval env := by
  induction e with
  | literal value => rfl
  | var name => rfl
  | binary op left right ihLeft ihRight =>
    simp only [Expr.meaning, ExprMeaning.binary, Expr.eval, ihLeft, ihRight]

theorem Expr.holds_meaning (e : Expr) (env : Environment) : e.meaning.holds env = e.holds env := by
  simp only [ExprMeaning.holds, Expr.holds, Expr.apply_meaning]

/-- Loops are alike when their bodies are. -/
theorem evalLoop_alike {condition : Expr} {first second : Environment → Metered Environment}
    (alike : ∀ env, (first env).Alike (second env)) (fuel : Nat) (env : Environment)
    (count : UInt64) :
    (Stmt.evalLoop condition first fuel env count).Alike
      (StmtMeaning.iterate condition.meaning second fuel env) := by
  induction fuel generalizing env count with
  | zero => exact .starved
  | succ fuel ih =>
    rw [Stmt.evalLoop, StmtMeaning.iterate, Expr.holds_meaning]
    refine .bind (.lift _) fun truth => ?_
    cases truth with
    | true =>
      refine .bind .tick fun _ => .bind (alike env) fun next => .bind (.report rfl) fun _ => ?_
      exact ih next (count + 1)
    | false => exact .pure env

/-- A statement and its meaning are alike with every fuel and in every environment. -/
theorem Stmt.eval_alike (fuel : Nat) (s : Stmt) (env : Environment) :
    (s.eval fuel env).Alike (s.meaning.apply fuel env) := by
  induction s generalizing env with
  | assign name value =>
    rw [eval_assign, meaning_assign, StmtMeaning.assign]
    simp only [Expr.apply_meaning]
    exact .bind .tick fun _ => .bind (.lift _) fun v => .pure _
  | skip =>
    rw [eval_skip, meaning_skip, StmtMeaning.skip]
    exact .bind .tick fun _ => .pure env
  | ifThenElse condition consequence alternative ihConsequence ihAlternative =>
    rw [eval_ifThenElse, meaning_ifThenElse, StmtMeaning.ifThenElse]
    simp only [Expr.holds_meaning]
    refine .bind .tick fun _ => .bind (.lift _) fun truth => ?_
    cases truth with
    | true => exact ihConsequence env
    | false => exact ihAlternative env
  | seq first second ihFirst ihSecond =>
    rw [eval_seq, apply_meaning_seq]
    exact .bind .tick fun _ => .bind (ihFirst env) ihSecond
  | whileDo condition body ih =>
    rw [eval_whileDo, meaning_whileDo, StmtMeaning.whileDo]
    exact .bind .tick fun _ => evalLoop_alike ih fuel env 0

/-- What a meaning ends in, evaluation ends in with the same gas left. -/
theorem Stmt.exists_eval_of_meaning {fuel : Nat} {s : Stmt} {env : Environment}
    {meter left : Meter} {result : Result}
    (ran : (s.meaning.apply fuel env).run meter = some (result, left)) :
    ∃ after : Meter, (s.eval fuel env).run meter = some (result, after) ∧ after.gas = left.gas := by
  have alike := (s.eval_alike fuel env).gas meter
  rw [ran, Option.map_some, Option.map_eq_some_iff] at alike
  obtain ⟨⟨_, after⟩, evaluated, same⟩ := alike
  cases (Prod.mk.inj same).1
  exact ⟨after, evaluated, (Prod.mk.inj same).2⟩

end Concord
