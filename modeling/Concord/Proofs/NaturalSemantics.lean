import Concord.Evaluation
import Concord.Proofs.Budget

/-! # Runs without a budget

`Stmt.Yields` says, by recursion on the statement and without fuel, how a run ends that nothing
limits, and how many units of gas it uses on the way. A loop is the one place where a run need not
end; its runs are the derivations of `Iterates`. Direct evaluation follows these rules:
`Stmt.Yields.costs` finds fuel for every run that ends, and `Stmt.eval_costs` says what a given fuel
is good for. Evaluation that wants for fuel has used at least as many units as it was given fuel, so
a budget below the fuel is never cut short by it.
-/

namespace Concord

/-- The runs of a loop, of which `body` says how its single iterations end. -/
inductive Iterates (condition : Expr) (body : Environment → Nat → Result → Prop) :
    Environment → Nat → Result → Prop where
  /-- The condition has no truth value. -/
  | conditionFault {env : Environment} {fault : Fault}
      (failed : condition.holds env = .error fault) :
      Iterates condition body env 0 (.error fault)
  /-- The condition is false. -/
  | done {env : Environment} (exit : condition.holds env = .ok false) :
      Iterates condition body env 0 (.ok env)
  /-- The iteration fails. -/
  | bodyFault {env : Environment} {units : Nat} {fault : Fault}
      (enter : condition.holds env = .ok true) (failed : body env units (.error fault)) :
      Iterates condition body env (units + 1) (.error fault)
  /-- The iteration is over, and the loop goes on from where it has led. -/
  | again {env next : Environment} {units rest : Nat} {result : Result}
      (enter : condition.holds env = .ok true) (iterated : body env units (.ok next))
      (onward : Iterates condition body next rest result) :
      Iterates condition body env (units + rest + 1) result

namespace Stmt

/-- Run in the environment with nothing to limit it, the statement uses so many units and ends in
the result. -/
def Yields : Stmt → Environment → Nat → Result → Prop
  | assign name value, env, units, result =>
    units = 1 ∧ result = (value.eval env).map (env.insert name)
  | skip, env, units, result => units = 1 ∧ result = .ok env
  | ifThenElse condition consequence alternative, env, units, result =>
    match condition.holds env with
    | .error fault => units = 1 ∧ result = .error fault
    | .ok true => ∃ rest, consequence.Yields env rest result ∧ units = rest + 1
    | .ok false => ∃ rest, alternative.Yields env rest result ∧ units = rest + 1
  | seq first second, env, units, result =>
    (∃ before fault, first.Yields env before (.error fault) ∧
      units = before + 1 ∧ result = .error fault) ∨
    ∃ middle before after, first.Yields env before (.ok middle) ∧
      second.Yields middle after result ∧ units = before + after + 1
  | whileDo condition body, env, units, result =>
    ∃ rest, Iterates condition body.Yields env rest result ∧ units = rest + 1

/-- A conditional fails with its condition, or goes on with the branch that it chooses. -/
theorem yields_ifThenElse_iff {condition : Expr} {consequence alternative : Stmt}
    {env : Environment} {units : Nat} {result : Result} :
    (ifThenElse condition consequence alternative).Yields env units result ↔
      (∃ fault, condition.holds env = .error fault ∧ units = 1 ∧ result = .error fault) ∨
      ∃ truth rest, condition.holds env = .ok truth ∧
        (if truth then consequence else alternative).Yields env rest result ∧ units = rest + 1 := by
  rw [Yields]
  cases holds : condition.holds env with
  | error fault => simp
  | ok truth => cases truth <;> simp

/-- More fuel does not change how a loop ends. -/
theorem evalLoop_below {condition : Expr} {small large : Environment → Metered Environment}
    (below : ∀ env, (small env).Below (large env)) {fuel more : Nat} (order : fuel ≤ more)
    (env : Environment) (count : UInt64) :
    (evalLoop condition small fuel env count).Below (evalLoop condition large more env count) := by
  induction fuel generalizing more env count with
  | zero => exact .starved _
  | succ fuel ih =>
    obtain ⟨more, rfl⟩ : ∃ rest, more = rest + 1 := ⟨more - 1, by omega⟩
    refine .bind (.refl _) fun truth => ?_
    cases truth with
    | true =>
      refine .bind (.refl _) fun _ => .bind (below env) fun next => .bind (.refl _) fun _ => ?_
      exact ih (by omega) next (count + 1)
    | false => exact .refl _

/-- More fuel does not change how evaluation ends. -/
theorem eval_below {fuel more : Nat} (order : fuel ≤ more) (s : Stmt) (env : Environment) :
    (s.eval fuel env).Below (s.eval more env) := by
  induction s generalizing env with
  | assign name value => rw [eval_assign, eval_assign]; exact .refl _
  | skip => rw [eval_skip, eval_skip]; exact .refl _
  | ifThenElse condition consequence alternative ihConsequence ihAlternative =>
    rw [eval_ifThenElse, eval_ifThenElse]
    refine .bind (.refl _) fun _ => .bind (.refl _) fun truth => ?_
    cases truth with
    | true => exact ihConsequence env
    | false => exact ihAlternative env
  | seq first second ihFirst ihSecond =>
    rw [eval_seq, eval_seq]
    exact .bind (.refl _) fun _ => .bind (ihFirst env) ihSecond
  | whileDo condition body ih =>
    rw [eval_whileDo, eval_whileDo]
    exact .bind (.refl _) fun _ => evalLoop_below ih order env 0

/-- A run of a loop can be made with enough fuel. -/
private theorem evalLoop_costs_of_iterates {condition : Expr} {body : Stmt} {env : Environment}
    {units : Nat} {result : Result}
    (bodyCosts : ∀ {env units result}, body.Yields env units result →
      ∃ fuel, (body.eval fuel env).Costs units (some result))
    (run : Iterates condition body.Yields env units result) :
    ∃ fuel, ∀ count, (evalLoop condition (body.eval fuel) fuel env count).Costs units
      (some result) := by
  induction run with
  | conditionFault failed => exact ⟨1, fun _ => .lift_bind_fault failed _⟩
  | done exit => exact ⟨1, fun _ => .lift_bind exit (.pure _)⟩
  | bodyFault enter failed =>
    obtain ⟨fuel, bodyCost⟩ := bodyCosts failed
    refine ⟨fuel + 1, fun count => .lift_bind enter (.tick_bind (.bind_fault ?_ _))⟩
    exact bodyCost.of_below (eval_below (Nat.le_succ fuel) body _)
  | @again env next units rest result enter iterated _ ih =>
    obtain ⟨fuel, bodyCost⟩ := bodyCosts iterated
    obtain ⟨loopFuel, loopCost⟩ := ih
    let more := max fuel loopFuel + 1
    have iteration : (body.eval more env).Costs units (some (.ok next)) :=
      bodyCost.of_below (eval_below (by omega) body env)
    have onward (count : UInt64) :
        (evalLoop condition (body.eval more) (max fuel loopFuel) next count).Costs rest
          (some result) :=
      (loopCost count).of_below
        (evalLoop_below (fun env => eval_below (by omega) body env) (by omega) next count)
    refine ⟨more, fun count => .lift_bind enter (.tick_bind ?_)⟩
    exact iteration.bind (.report_bind (onward (count + 1)))

/-- A run that ends can be made by evaluation with enough fuel, and for the same units. -/
theorem Yields.costs {s : Stmt} {env : Environment} {units : Nat} {result : Result}
    (run : s.Yields env units result) : ∃ fuel, (s.eval fuel env).Costs units (some result) := by
  induction s generalizing env units result with
  | assign name value =>
    obtain ⟨rfl, rfl⟩ := run
    refine ⟨0, ?_⟩
    rw [eval_assign]
    cases evaluated : value.eval env with
    | error fault => exact .tick_bind (.lift_bind_fault rfl _)
    | ok v => exact .tick_bind (.lift_bind rfl (.pure _))
  | skip =>
    obtain ⟨rfl, rfl⟩ := run
    refine ⟨0, ?_⟩
    rw [eval_skip]
    exact .tick_bind (.pure _)
  | ifThenElse condition consequence alternative ihConsequence ihAlternative =>
    obtain ⟨fault, failed, rfl, rfl⟩ | ⟨truth, rest, holds, taken, rfl⟩ :=
      yields_ifThenElse_iff.mp run
    · refine ⟨0, ?_⟩
      rw [eval_ifThenElse]
      exact .tick_bind (.lift_bind_fault failed _)
    · cases truth with
      | true =>
        obtain ⟨fuel, cost⟩ := ihConsequence taken
        refine ⟨fuel, ?_⟩
        rw [eval_ifThenElse]
        exact .tick_bind (.lift_bind holds cost)
      | false =>
        obtain ⟨fuel, cost⟩ := ihAlternative taken
        refine ⟨fuel, ?_⟩
        rw [eval_ifThenElse]
        exact .tick_bind (.lift_bind holds cost)
  | seq first second ihFirst ihSecond =>
    obtain ⟨before, fault, failed, rfl, rfl⟩ | ⟨middle, before, after, passed, ended, rfl⟩ := run
    · obtain ⟨fuel, cost⟩ := ihFirst failed
      refine ⟨fuel, ?_⟩
      rw [eval_seq]
      exact .tick_bind (cost.bind_fault _)
    · obtain ⟨fuel, cost⟩ := ihFirst passed
      obtain ⟨more, rest⟩ := ihSecond ended
      refine ⟨max fuel more, ?_⟩
      rw [eval_seq]
      refine .tick_bind (.bind (a := middle) ?_ ?_)
      · exact cost.of_below (eval_below (Nat.le_max_left fuel more) first env)
      · exact rest.of_below (eval_below (Nat.le_max_right fuel more) second middle)
  | whileDo condition body ih =>
    obtain ⟨rest, iterates, rfl⟩ := run
    obtain ⟨fuel, cost⟩ := evalLoop_costs_of_iterates ih iterates
    refine ⟨fuel, ?_⟩
    rw [eval_whileDo]
    exact .tick_bind (cost 0)

/-- A loop with some fuel either makes a run, or starves after as many units. -/
private theorem evalLoop_costs (condition : Expr) {body : Stmt} {fuel : Nat}
    (bodyCosts : ∀ env,
      (∃ units result, body.Yields env units result ∧
        (body.eval fuel env).Costs units (some result)) ∨
      ∃ units, fuel ≤ units ∧ (body.eval fuel env).Costs units none)
    {loopFuel : Nat} (order : loopFuel ≤ fuel) (env : Environment) (count : UInt64) :
    (∃ units result, Iterates condition body.Yields env units result ∧
      (evalLoop condition (body.eval fuel) loopFuel env count).Costs units (some result)) ∨
    ∃ units, loopFuel ≤ units ∧
      (evalLoop condition (body.eval fuel) loopFuel env count).Costs units none := by
  induction loopFuel generalizing env count with
  | zero => exact .inr ⟨0, Nat.le_refl 0, .starved⟩
  | succ loopFuel ih =>
    cases holds : condition.holds env with
    | error fault => exact .inl ⟨0, _, .conditionFault holds, .lift_bind_fault holds _⟩
    | ok truth =>
      cases truth with
      | false => exact .inl ⟨0, _, .done holds, .lift_bind holds (.pure _)⟩
      | true =>
        obtain ⟨units, result, run, cost⟩ | ⟨units, enough, cost⟩ := bodyCosts env
        · cases result with
          | error fault =>
            exact .inl ⟨units + 1, _, .bodyFault holds run,
              .lift_bind holds (.tick_bind (cost.bind_fault _))⟩
          | ok next =>
            obtain ⟨rest, result, onward, loopCost⟩ | ⟨rest, enough, loopCost⟩ :=
              ih (by omega) next (count + 1)
            · exact .inl ⟨units + rest + 1, result, .again holds run onward,
                .lift_bind holds (.tick_bind (cost.bind (.report_bind loopCost)))⟩
            · exact .inr ⟨units + rest + 1, by omega,
                .lift_bind holds (.tick_bind (cost.bind (.report_bind loopCost)))⟩
        · exact .inr ⟨units + 1, by omega, .lift_bind holds (.tick_bind (cost.bind_starved _))⟩

/-- Evaluation with some fuel either makes a run, or starves after as many units. -/
theorem eval_costs (fuel : Nat) (s : Stmt) (env : Environment) :
    (∃ units result, s.Yields env units result ∧ (s.eval fuel env).Costs units (some result)) ∨
    ∃ units, fuel ≤ units ∧ (s.eval fuel env).Costs units none := by
  induction s generalizing env with
  | assign name value =>
    rw [eval_assign]
    refine .inl ⟨1, _, ⟨rfl, rfl⟩, ?_⟩
    cases evaluated : value.eval env with
    | error fault => exact .tick_bind (.lift_bind_fault rfl _)
    | ok v => exact .tick_bind (.lift_bind rfl (.pure _))
  | skip =>
    rw [eval_skip]
    exact .inl ⟨1, _, ⟨rfl, rfl⟩, .tick_bind (.pure _)⟩
  | ifThenElse condition consequence alternative ihConsequence ihAlternative =>
    rw [eval_ifThenElse]
    cases holds : condition.holds env with
    | error fault =>
      refine .inl ⟨1, .error fault, ?_, .tick_bind (.lift_bind_fault rfl _)⟩
      exact yields_ifThenElse_iff.mpr (.inl ⟨fault, holds, rfl, rfl⟩)
    | ok truth =>
      cases truth with
      | true =>
        obtain ⟨units, result, taken, cost⟩ | ⟨units, enough, cost⟩ := ihConsequence env
        · refine .inl ⟨units + 1, result, ?_, .tick_bind (.lift_bind rfl cost)⟩
          exact yields_ifThenElse_iff.mpr (.inr ⟨true, units, holds, taken, rfl⟩)
        · exact .inr ⟨units + 1, by omega, .tick_bind (.lift_bind rfl cost)⟩
      | false =>
        obtain ⟨units, result, taken, cost⟩ | ⟨units, enough, cost⟩ := ihAlternative env
        · refine .inl ⟨units + 1, result, ?_, .tick_bind (.lift_bind rfl cost)⟩
          exact yields_ifThenElse_iff.mpr (.inr ⟨false, units, holds, taken, rfl⟩)
        · exact .inr ⟨units + 1, by omega, .tick_bind (.lift_bind rfl cost)⟩
  | seq first second ihFirst ihSecond =>
    rw [eval_seq]
    obtain ⟨before, result, run, cost⟩ | ⟨before, enough, cost⟩ := ihFirst env
    · cases result with
      | error fault =>
        exact .inl ⟨before + 1, _, .inl ⟨before, fault, run, rfl, rfl⟩,
          .tick_bind (cost.bind_fault _)⟩
      | ok middle =>
        obtain ⟨after, result, ended, rest⟩ | ⟨after, enough, rest⟩ := ihSecond middle
        · exact .inl ⟨before + after + 1, result, .inr ⟨middle, before, after, run, ended, rfl⟩,
            .tick_bind (cost.bind rest)⟩
        · exact .inr ⟨before + after + 1, by omega, .tick_bind (cost.bind rest)⟩
    · exact .inr ⟨before + 1, by omega, .tick_bind (cost.bind_starved _)⟩
  | whileDo condition body ih =>
    rw [eval_whileDo]
    obtain ⟨units, result, run, cost⟩ | ⟨units, enough, cost⟩ :=
      evalLoop_costs condition ih (Nat.le_refl fuel) env 0
    · exact .inl ⟨units + 1, result, ⟨units, run, rfl⟩, .tick_bind cost⟩
    · exact .inr ⟨units + 1, by omega, .tick_bind cost⟩

/-- What evaluation ends in is paid for, and is the statement's outcome if gas allows. -/
theorem exists_pay_of_eval {fuel : Nat} {s : Stmt} {env : Environment} {meter left : Meter}
    {result : Result} (ran : (s.eval fuel env).run meter = some (result, left)) :
    ∃ units ending, (∀ own, ending = some own → s.Yields env units own) ∧
      meter.gas.pay units ending = some (result, left.gas) := by
  obtain ⟨units, own, run, costs⟩ | ⟨units, _, costs⟩ := eval_costs fuel s env
  · exact ⟨units, some own, fun _ same => Option.some.inj same ▸ run, costs.paid ran⟩
  · exact ⟨units, none, nofun, costs.paid ran⟩

end Stmt

end Concord
