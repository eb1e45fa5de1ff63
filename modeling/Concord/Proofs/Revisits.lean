import Concord.Proofs.Emission
import Concord.Proofs.Tracing
import Mathlib.Data.List.Nodup

/-! # Coming back to a loop

Evaluation of a loop goes around in place, and reduction unrolls the loop into a conditional, which
it reduces to a sequence of the body and the loop. Only when the body is done is the loop all that
is left. So the states in which a machine is back at the loop that it was started with are those
behind the iterations of evaluation, one for each, and no term on the way in between is that loop,
whatever loops the body is made of.
-/

namespace Concord

namespace Metered

variable {α : Type}

/-- The computation without the events that it reports. -/
def muted (computation : Metered α) : Metered α := fun meter =>
  (computation.run meter).map fun (result, after) => (result, { after with events := meter.events })

theorem Below.muted {small large : Metered α} (below : small.Below large) :
    small.muted.Below large.muted := by
  intro meter ended ran
  obtain ⟨full, finished, rfl⟩ := Option.map_eq_some_iff.mp ran
  exact Option.map_eq_some_iff.mpr ⟨full, below meter full finished, rfl⟩

/-- A muted computation uses the same gas and reports nothing. -/
theorem Costs.muted_emits {computation : Metered α} {units : ℕ} {result : Except Fault α}
    {gas left : Gas} (costs : computation.Costs units (some result))
    (granted : gas.charge units = (.ok (), left)) : computation.muted.Emits gas result left [] := by
  rintro meter rfl
  obtain ⟨after, ran, rfl⟩ := costs.run_of_granted granted
  refine ⟨{ after with events := meter.events }, ?_, ?_⟩
  · exact Option.map_eq_some_iff.mpr ⟨_, ran, rfl⟩
  · rw [List.append_nil]
    rfl

end Metered

namespace Stmt

open Rewriting

/-- Evaluation of a loop that reports the iterations of this loop and of no loop inside of it. -/
def evalTurns (fuel : ℕ) (condition : Expr) (body : Stmt) (env : Environment) :
    Metered Environment :=
  evalLoop condition (fun env => (body.eval fuel env).muted) fuel env 0

/-- With nothing to limit it, the loop comes to the result, and holds these environments, in this
order, after the iterations that it completes. -/
def Turns (condition : Expr) (body : Stmt) (env : Environment) (turns : List Environment)
    (result : Result) : Prop :=
  ∃ fuel after, (evalTurns fuel condition body env).run {} = some (result, after) ∧
    after.iterations = turns

/-- The environment of a state that has the statement as a whole. -/
def visit? (s : Stmt) (state : Stmt × Environment) : Option Environment :=
  if state.1 = s then some state.2 else none

theorem visit?_eq_some_iff {s : Stmt} {state : Stmt × Environment} {env : Environment} :
    s.visit? state = some env ↔ state = (s, env) := by
  obtain ⟨t, environment⟩ := state
  simp [visit?]

/-- Reduction comes from the first state to the last one, and on the way to the statement as a
whole in these environments, in this order. -/
def Visits (s : Stmt) (first : Stmt × Environment) (visits : List Environment)
    (last : Stmt × Environment) : Prop :=
  ∃ states, rewriting.Path first states last ∧ states.filterMap s.visit? = visits

namespace Visits

variable {s : Stmt} {first middle last : Stmt × Environment} {visits others : List Environment}

theorem trans (before : s.Visits first visits middle) (onward : s.Visits middle others last) :
    s.Visits first (visits ++ others) last := by
  obtain ⟨states, path, rfl⟩ := before
  obtain ⟨rest, pathRest, rfl⟩ := onward
  exact ⟨states ++ rest, path.append pathRest, List.filterMap_append⟩

/-- A step to another statement. -/
theorem pass (stepped : rewriting.step first = .ok last) (other : last.1 ≠ s) :
    s.Visits first [] last :=
  ⟨[last], .cons stepped (.nil last), by simp [visit?, other]⟩

/-- A step to the statement. -/
theorem arrive {env : Environment} (stepped : rewriting.step first = .ok (s, env)) :
    s.Visits first [env] (s, env) :=
  ⟨[(s, env)], .cons stepped (.nil _), by simp [visit?]⟩

/-- What happens in a part of another statement. -/
theorem inside {σ α : Type} {inner : Rewriting σ α} {fill : σ → Stmt × Environment}
    (context : inner.Context rewriting fill) (other : ∀ x, (fill x).1 ≠ s) {x y : σ} {steps : ℕ}
    (reached : inner.after steps x = .ok y) : s.Visits (fill x) [] (fill y) := by
  obtain ⟨terms, _, path⟩ := exists_path_of_after reached
  refine ⟨terms.map fill, context.path path, ?_⟩
  simp [visit?, other]

/-- A run that ends comes to the statement in no environment twice. -/
theorem nodup {env : Environment} {result : Result} (visited : s.Visits (s, env) visits last)
    (stopped : rewriting.stop? last = some result) : (env :: visits).Nodup := by
  obtain ⟨states, path, rfl⟩ := visited
  have whole : ((s, env) :: states).filterMap s.visit? = env :: states.filterMap s.visit? :=
    List.filterMap_cons_some (visit?_eq_some_iff.mpr rfl)
  rw [← whole]
  refine (path.nodup stopped).filterMap fun state other environment here there => ?_
  exact (visit?_eq_some_iff.mp here).trans (visit?_eq_some_iff.mp there).symm

end Visits

variable {condition : Expr} {body : Stmt} {env : Environment}

/-- The loop unrolls, and while its condition is reduced there is a conditional. -/
theorem visits_test {steps : ℕ} {e : Expr}
    (reached : (Expr.rewriting env).after steps condition = .ok e) :
    (whileDo condition body).Visits (whileDo condition body, env) []
      (ifThenElse e (seq body (whileDo condition body)) skip, env) := by
  have context := context_condition (seq body (whileDo condition body)) skip env
  have unrolled : rewriting.step (whileDo condition body, env) =
      .ok (ifThenElse condition (seq body (whileDo condition body)) skip, env) := rfl
  exact (Visits.pass unrolled (by simp)).trans (.inside context (by simp) reached)

/-- A test that fails does not come to the loop. -/
theorem visits_condition_fault {fault : Fault} (failed : condition.holds env = .error fault) :
    ∃ last, (whileDo condition body).Visits (whileDo condition body, env) [] last ∧
      rewriting.stop? last = some (.error fault) := by
  obtain ⟨_, _, reached, stuck⟩ :=
    stuck_of_condition_fault failed (seq body (whileDo condition body)) skip
  exact ⟨_, visits_test reached, stuck⟩

/-- Nor does one that chooses its branch. -/
theorem visits_branch {truth : Bool} (holds : condition.holds env = .ok truth) :
    (whileDo condition body).Visits (whileDo condition body, env) []
      (if truth then seq body (whileDo condition body) else skip, env) := by
  obtain ⟨value, evaluated, chosen⟩ := bind_eq_ok_iff.mp holds
  obtain ⟨e, reached, stopped⟩ := Expr.ends_value evaluated
  obtain rfl := (Expr.asValue?_eq_some_iff e value).mp (stop?_eq_ok_iff.mp stopped)
  exact (visits_test reached).trans (.pass (step_branch chosen _ _ _) (by cases truth <;> simp))

/-- While the body is reduced there is a sequence. -/
theorem visits_inside_body {steps : ℕ} {state : Stmt × Environment}
    (enter : condition.holds env = .ok true)
    (reached : rewriting.after steps (body, env) = .ok state) :
    (whileDo condition body).Visits (whileDo condition body, env) []
      (seq state.1 (whileDo condition body), state.2) :=
  (visits_branch enter).trans
    (.inside (context_first (whileDo condition body)) (by simp) reached)

/-- An iteration that fails does not come to the loop. -/
theorem visits_body_fault {fault : Fault} {steps : ℕ} (enter : condition.holds env = .ok true)
    (failed : rewriting.Ends (body, env) steps (.error fault)) :
    ∃ last, (whileDo condition body).Visits (whileDo condition body, env) [] last ∧
      rewriting.stop? last = some (.error fault) := by
  obtain ⟨last, reached, stopped⟩ := failed
  exact ⟨_, visits_inside_body enter reached,
    (context_first (whileDo condition body)).stop_fault stopped⟩

/-- An iteration comes back to the loop when its body is done, and not before. -/
theorem visits_iteration {next : Environment} {steps : ℕ} (enter : condition.holds env = .ok true)
    (ended : rewriting.Ends (body, env) steps (.ok next)) :
    (whileDo condition body).Visits (whileDo condition body, env) [next]
      (whileDo condition body, next) := by
  obtain ⟨last, reached, stopped⟩ := ended
  obtain rfl := eq_skip_of_value (stop?_eq_ok_iff.mp stopped)
  exact (visits_inside_body enter reached).trans (.arrive rfl)

/-- Without a limit, a run that ends can be made muted, with enough fuel or more. -/
private theorem Yields.muted_emits {s : Stmt} {units : ℕ} {result : Result}
    (run : s.Yields env units result) :
    ∃ fuel, ∀ more, fuel ≤ more → ∀ gas : Gas, gas.limit = none →
      ∃ left, left.limit = none ∧ (s.eval more env).muted.Emits gas result left [] := by
  obtain ⟨fuel, cost⟩ := run.costs
  refine ⟨fuel, fun more order gas limitless =>
    ⟨{ gas with used := gas.used + .ofNat units }, limitless, ?_⟩⟩
  exact (cost.of_below (eval_below order s env)).muted_emits
    (Gas.charge_of_unlimited limitless units)

/-- A run of a loop holds the environments, after its iterations, in which its reduction comes back
to the loop. -/
private theorem exists_turns_of_iterates {units : ℕ} {result : Result}
    (run : Iterates condition body.Yields env units result) :
    ∃ turns,
      (∃ fuel, ∀ count gas, gas.limit = none → ∃ left,
        (evalLoop condition (fun env => (body.eval fuel env).muted) fuel env count).Emits gas
          result left turns) ∧
      ∃ last, (whileDo condition body).Visits (whileDo condition body, env) turns last ∧
        rewriting.stop? last = some result := by
  induction run with
  | conditionFault failed =>
    exact ⟨[], ⟨1, fun _ gas _ => ⟨gas, .lift_bind_fault failed _ gas⟩⟩,
      visits_condition_fault failed⟩
  | done exit =>
    exact ⟨[], ⟨1, fun _ gas _ => ⟨gas, .lift_bind exit (.pure _ gas)⟩⟩, _, visits_branch exit,
      stop?_of_value rfl⟩
  | bodyFault enter failed =>
    obtain ⟨fuel, bodyEmits⟩ := failed.muted_emits
    obtain ⟨steps, ended⟩ := failed.ends
    refine ⟨[], ⟨fuel + 1, fun count gas limitless => ?_⟩, visits_body_fault enter ended⟩
    have granted := Gas.check_of_unlimited limitless
    obtain ⟨left, _, failing⟩ := bodyEmits (fuel + 1) (Nat.le_succ fuel) gas.spend limitless
    exact ⟨left, .lift_bind enter (.tick_bind granted (failing.bind_fault _))⟩
  | @again env next units rest result enter iterated _ ih =>
    obtain ⟨turns, ⟨loopFuel, loopEmits⟩, last, visits, stopped⟩ := ih
    obtain ⟨fuel, bodyEmits⟩ := iterated.muted_emits
    obtain ⟨steps, ended⟩ := iterated.ends
    refine ⟨next :: turns, ⟨max fuel loopFuel + 1, fun count gas limitless => ?_⟩, last,
      (visits_iteration enter ended).trans visits, stopped⟩
    obtain ⟨between, limitlessStill, iteration⟩ :=
      bodyEmits (max fuel loopFuel + 1) (by omega) gas.spend limitless
    obtain ⟨left, onward⟩ := loopEmits (count + 1) between limitlessStill
    have order : loopFuel ≤ max fuel loopFuel := Nat.le_max_right fuel loopFuel
    have onward := onward.of_below
      (evalLoop_below (fun env => (eval_below (Nat.le_succ_of_le order) body env).muted) order next
        (count + 1))
    have granted := Gas.check_of_unlimited limitless
    exact ⟨left, .lift_bind enter (.tick_bind granted (iteration.bind (.report_bind onward)))⟩

/-- A loop comes to one result by one list of turns. -/
theorem Turns.unique {turns others : List Environment} {result other : Result}
    (run : Turns condition body env turns result) (again : Turns condition body env others other) :
    turns = others ∧ result = other := by
  obtain ⟨fuel, after, ran, rfl⟩ := run
  obtain ⟨more, otherAfter, ranAgain, rfl⟩ := again
  have below {small large : ℕ} (order : small ≤ large) :
      (evalTurns small condition body env).Below (evalTurns large condition body env) :=
    evalLoop_below (fun env => (eval_below order body env).muted) order env 0
  have here := below (Nat.le_max_left fuel more) _ _ ran
  have there := below (Nat.le_max_right fuel more) _ _ ranAgain
  cases here.symm.trans there
  exact ⟨rfl, rfl⟩

/-- The run of a loop and its reduction have the same turns, when they have an end. -/
theorem exists_turns {steps : ℕ} {result : Result}
    (ended : rewriting.Ends (whileDo condition body, env) steps result) :
    ∃ turns last, Turns condition body env turns result ∧
      (whileDo condition body).Visits (whileDo condition body, env) turns last ∧
      rewriting.stop? last = some result := by
  obtain ⟨_, _, iterates, _⟩ := (yields_iff_ends _ env result).mpr ⟨steps, ended⟩
  obtain ⟨turns, ⟨fuel, emits⟩, last, visits, stopped⟩ := exists_turns_of_iterates iterates
  obtain ⟨left, emits⟩ := emits 0 .unlimited rfl
  obtain ⟨after, ran, shown⟩ := emits {} rfl
  exact ⟨turns, last, ⟨fuel, after, ran, congrArg Prod.snd shown⟩, visits, stopped⟩

end Stmt

/-- The environment that the event shows with the statement as a whole. -/
def Event.visit? (s : Stmt) : Event → Option Environment
  | reduced _ statement environment => s.visit? (statement, environment)
  | _ => none

theorem Event.filterMap_visit?_reductions (s : Stmt) (before : UInt64)
    (states : List (Stmt × Environment)) :
    (Event.reductions before states).filterMap (Event.visit? s) = states.filterMap s.visit? := by
  induction states generalizing before with
  | nil => rfl
  | cons state rest ih =>
    have head : (reduced (before + 1) state.1 state.2).visit? s = s.visit? state := rfl
    rw [reductions, List.filterMap_cons, List.filterMap_cons, head, ih]

namespace Machine

open Rewriting

/-- Run with nothing shown before, the machine returns, and has come back to the statement that it
was started with in these environments, in this order. -/
def Revisits (machine : Machine) (visits : List Environment) : Prop :=
  ∃ fuel result next left, machine.run fuel {} = some (result, next, left) ∧
    left.events.toList.filterMap (Event.visit? machine.statement) = visits

variable {machine : Machine}

/-- A machine that nothing limits comes back to its statement where reduction does. -/
theorem revisits_iff_of_visits {visits : List Environment} {last : Stmt × Environment}
    {result : Result} (limitless : machine.gas.limit = none)
    (visited : machine.statement.Visits machine.state visits last)
    (stopped : Stmt.rewriting.stop? last = some result) (settled : isExhausted result = false)
    (others : List Environment) : machine.Revisits others ↔ others = visits := by
  obtain ⟨states, path, rfl⟩ := visited
  obtain ⟨enough, next, left, ran⟩ := exists_run_of_ends ⟨_, path.after, stopped⟩ limitless {}
  have seen : left.events.toList.filterMap (Event.visit? machine.statement) =
      states.filterMap machine.statement.visit? := by
    obtain ⟨own, _, ownPath, _, grows⟩ := grows_of_run ran
    obtain ⟨_, _, ownStop⟩ := run_of_unexhausted ran settled
    obtain ⟨rfl, _⟩ := ownPath.unique ownStop path stopped
    have halted :
        (Event.halt next.steps result).filterMap (Event.visit? machine.statement) = [] := by
      cases result <;> rfl
    rw [grows.events, List.filterMap_append, List.filterMap_cons_none rfl, List.filterMap_append,
      Event.filterMap_visit?_reductions, halted, List.append_nil]
    rfl
  constructor
  · rintro ⟨fuel, other, otherNext, otherLeft, ranAgain, rfl⟩
    have here := finish_of_more_fuel (Nat.le_max_left enough fuel) ran
    have there := finish_of_more_fuel (Nat.le_max_right enough fuel) ranAgain
    cases here.symm.trans there
    exact seen
  · rintro rfl
    exact ⟨enough, result, next, left, ran, seen⟩

/-- When the run of a loop returns that nothing limits, a machine that is started with the loop
comes back to it just as often as evaluation completes an iteration, and in the environments that
these lead to, one after the other. No environment is among them twice, and the first one is not
among them. -/
theorem revisits_are_turns {strategy : Strategy} {condition : Expr} {body : Stmt}
    {env : Environment} {result : Result}
    (answer : strategy.Answers (.whileDo condition body) env result) :
    ∃ turns,
      (∀ others other, Stmt.Turns condition body env others other ↔
        others = turns ∧ other = result) ∧
      (∀ machine : Machine, machine.state = (.whileDo condition body, env) →
        machine.gas.limit = none → ∀ visits, machine.Revisits visits ↔ visits = turns) ∧
      (env :: turns).Nodup := by
  obtain ⟨steps, ended⟩ :=
    (Stmt.yields_iff_ends _ env result).mp (Strategy.answers_iff_yields.mp answer)
  obtain ⟨turns, last, run, visited, stopped⟩ := Stmt.exists_turns ended
  refine ⟨turns, fun others other => ⟨fun again => again.unique run, ?_⟩, ?_,
    visited.nodup stopped⟩
  · rintro ⟨rfl, rfl⟩
    exact run
  · intro machine started limitless visits
    obtain ⟨isLoop, isEnv⟩ := Prod.mk.inj started
    rw [← isLoop, ← isEnv] at visited
    exact revisits_iff_of_visits limitless visited stopped answer.settled visits

/-- `while (true) {while (x) {x = false}; x = y}`, which fails in its second iteration when `y` is a
number. -/
private def failsLater : Stmt :=
  .whileDo (.literal (.boolean true))
    (.seq (.whileDo (.var "x") (.assign "x" (.literal (.boolean false)))) (.assign "x" (.var "y")))

/-- Around a loop that runs another one: the second time, the inner loop fails at its test. -/
theorem revisits_are_turns_nested :
    ∃ condition body fault, failsLater = .whileDo condition body ∧
      Stmt.Turns condition body (.ofList [("x", .boolean true), ("y", .number ⟨7, by decide⟩)])
        [.ofList [("x", .number ⟨7, by decide⟩), ("y", .number ⟨7, by decide⟩)]] (.error fault) ∧
      Revisits {
        statement := failsLater
        environment := .ofList [("x", .boolean true), ("y", .number ⟨7, by decide⟩)] }
        [.ofList [("x", .number ⟨7, by decide⟩), ("y", .number ⟨7, by decide⟩)]] := by
  obtain ⟨fault, answer⟩ : ∃ fault, Strategy.smallStep.Answers failsLater
      (.ofList [("x", .boolean true), ("y", .number ⟨7, by decide⟩)]) (.error fault) :=
    ⟨_, _, 40, rfl⟩
  have revisits : Revisits {
      statement := failsLater
      environment := .ofList [("x", .boolean true), ("y", .number ⟨7, by decide⟩)] }
      [.ofList [("x", .number ⟨7, by decide⟩), ("y", .number ⟨7, by decide⟩)]] :=
    ⟨40, _, _, _, rfl, rfl⟩
  obtain ⟨turns, run, visited, _⟩ := revisits_are_turns answer
  obtain rfl := (visited _ rfl rfl _).mp revisits
  exact ⟨_, _, fault, rfl, (run _ _).mpr ⟨rfl, rfl⟩, revisits⟩

end Machine

end Concord
