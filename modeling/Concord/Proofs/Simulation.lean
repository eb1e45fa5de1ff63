import Concord.Proofs.NaturalSemantics
import Concord.Proofs.Rewriting
import Concord.Reduction

/-! # Reduction makes the runs of the statement

Reduction of expressions and of statements as rewriting systems. Reducing an expression comes to the
value or the fault of its evaluation. Reducing a statement comes to the result of its run, and where
a run has no end reduction has none: `Stmt.yields_iff_ends`. One direction follows a run and puts
its reductions together, inside the contexts in which they happen; the other goes back from the end
of a reduction one step at a time.
-/

namespace Concord

open Rewriting

namespace Expr

/-- The parts of an expression that have to be reduced: all but the literals. -/
def operations : Expr → Nat
  | literal _ => 0
  | var _ => 1
  | binary _ left right => left.operations + right.operations + 1

def rewriting (env : Environment) : Rewriting Expr Value where
  step e := e.reduce env
  value? := asValue?
  value_stops := by
    intro e value normal next
    cases e <;> simp_all [asValue?, reduce]

variable {env : Environment}

theorem asValue?_eq_some_iff (e : Expr) (value : Value) :
    e.asValue? = some value ↔ e = literal value := by
  cases e <;> simp [asValue?]

theorem asValue?_eq_none_iff (e : Expr) : e.asValue? = none ↔ e.isReducible = true := by
  cases e <;> simp [asValue?, isReducible]

theorem reduce_left {left : Expr} (reducible : left.isReducible = true) (op : Operator)
    (right : Expr) (env : Environment) :
    (binary op left right).reduce env = (left.reduce env).map (binary op · right) := by
  cases left with
  | literal value => cases reducible
  | var name => rfl
  | binary inner l r => rfl

theorem reduce_right {right : Expr} (reducible : right.isReducible = true) (op : Operator)
    (value : Value) (env : Environment) :
    (binary op (literal value) right).reduce env =
      (right.reduce env).map (binary op (literal value)) := by
  cases right with
  | literal value => cases reducible
  | var name => rfl
  | binary inner l r => rfl

theorem reduce_literals (op : Operator) (left right : Value) (env : Environment) :
    (binary op (literal left) (literal right)).reduce env = (op.apply left right).map literal := rfl

/-- A step of an operation is one of its left operand, or of its right one beside a literal, or it
applies the operator to two literals. -/
theorem reduce_binary_cases {op : Operator} {left right next : Expr}
    (stepped : (binary op left right).reduce env = .ok next) :
    (∃ reduct, left.reduce env = .ok reduct ∧ next = binary op reduct right) ∨
    (∃ a reduct, left = literal a ∧ right.reduce env = .ok reduct ∧
      next = binary op (literal a) reduct) ∨
    ∃ a b value, left = literal a ∧ right = literal b ∧ op.apply a b = .ok value ∧
      next = literal value := by
  by_cases openLeft : left.isReducible = true
  · rw [reduce_left openLeft] at stepped
    obtain ⟨reduct, reduced, rfl⟩ := map_eq_ok_iff.mp stepped
    exact .inl ⟨reduct, reduced, rfl⟩
  · obtain ⟨a, rfl⟩ := (isReducible_eq_false_iff left).mp (by simpa using openLeft)
    by_cases openRight : right.isReducible = true
    · rw [reduce_right openRight] at stepped
      obtain ⟨reduct, reduced, rfl⟩ := map_eq_ok_iff.mp stepped
      exact .inr (.inl ⟨a, reduct, rfl, reduced, rfl⟩)
    · obtain ⟨b, rfl⟩ := (isReducible_eq_false_iff right).mp (by simpa using openRight)
      rw [reduce_literals] at stepped
      obtain ⟨value, applied, rfl⟩ := map_eq_ok_iff.mp stepped
      exact .inr (.inr ⟨a, b, value, rfl, rfl, applied, rfl⟩)

/-- A step of the left operand is a step of the operation. -/
theorem context_left (op : Operator) (right : Expr) (env : Environment) :
    Context (rewriting env) (rewriting env) (binary op · right) := by
  refine .of_step_eq (fun _ _ => rfl) fun left normal => ?_
  exact reduce_left ((asValue?_eq_none_iff left).mp normal) op right env

/-- Beside a value, a step of the right operand is a step of the operation. -/
theorem context_right (op : Operator) (value : Value) (env : Environment) :
    Context (rewriting env) (rewriting env) (binary op (literal value)) := by
  refine .of_step_eq (fun _ _ => rfl) fun right normal => ?_
  exact reduce_right ((asValue?_eq_none_iff right).mp normal) op value env

theorem ends_literal (value : Value) : (rewriting env).Ends (literal value) 0 (.ok value) :=
  .of_stop (stop?_of_value rfl)

theorem ends_of_stuck {e : Expr} {fault : Fault} (reducible : e.isReducible = true)
    (failed : e.reduce env = .error fault) : (rewriting env).Ends e 0 (.error fault) :=
  .of_stop (stop?_of_fault ((asValue?_eq_none_iff e).mpr reducible) failed)

/-- A place whose expression has come to its value holds the literal of the value. -/
theorem after_literal {τ β : Type} {outer : Rewriting τ β} {fill : Expr → τ} {e : Expr}
    {value : Value} {steps : Nat} (context : Context (rewriting env) outer fill)
    (ended : (rewriting env).Ends e steps (.ok value)) :
    outer.after steps (fill e) = .ok (fill (literal value)) := by
  obtain ⟨last, normal, reached⟩ := context.after_value ended
  obtain rfl := (asValue?_eq_some_iff last value).mp normal
  exact reached

/-- With its operands reduced to literals, an operation is to be applied next. -/
theorem after_operands {left right : Expr} {a b : Value} {first second : Nat} (op : Operator)
    (endedLeft : (rewriting env).Ends left first (.ok a))
    (endedRight : (rewriting env).Ends right second (.ok b)) :
    (rewriting env).after (first + second) (binary op left right) =
      .ok (binary op (literal a) (literal b)) := by
  rw [after_add (after_literal (context_left op right env) endedLeft),
    after_literal (context_right op a env) endedRight]

/-- Reduction comes to the value of an expression after one step for each operation. -/
theorem ends_value {e : Expr} {value : Value} (evaluated : e.eval env = .ok value) :
    (rewriting env).Ends e e.operations (.ok value) := by
  induction e generalizing value with
  | literal v =>
    cases evaluated
    exact ends_literal v
  | var name =>
    have found : env.lookup name = .ok value := evaluated
    have stepped : (var name).reduce env = .ok (literal value) := by rw [reduce, found]; rfl
    exact (ends_literal value).cons stepped
  | binary op left right ihLeft ihRight =>
    obtain ⟨a, evalLeft, evaluated⟩ := bind_eq_ok_iff.mp evaluated
    obtain ⟨b, evalRight, applied⟩ := bind_eq_ok_iff.mp evaluated
    have stepped : (binary op (literal a) (literal b)).reduce env = .ok (literal value) := by
      rw [reduce_literals, applied]
      rfl
    exact .prepend (after_operands op (ihLeft evalLeft) (ihRight evalRight))
      ((ends_literal value).cons stepped)

/-- Reduction comes to the fault of an expression in fewer steps than it has operations. -/
theorem ends_fault {e : Expr} {fault : Fault} (evaluated : e.eval env = .error fault) :
    ∃ steps, steps < e.operations ∧ (rewriting env).Ends e steps (.error fault) := by
  induction e with
  | literal v => cases evaluated
  | var name =>
    have missing : env.lookup name = .error fault := evaluated
    have stuck : (var name).reduce env = .error fault := by rw [reduce, missing]; rfl
    exact ⟨0, Nat.one_pos, ends_of_stuck rfl stuck⟩
  | binary op left right ihLeft ihRight =>
    rw [operations]
    obtain failedLeft | ⟨a, evalLeft, evaluated⟩ := bind_eq_error_iff.mp evaluated
    · obtain ⟨steps, fewer, ended⟩ := ihLeft failedLeft
      exact ⟨steps, by omega, (context_left op right env).ends_fault ended⟩
    · have endedLeft := ends_value evalLeft
      obtain failedRight | ⟨b, evalRight, refused⟩ := bind_eq_error_iff.mp evaluated
      · obtain ⟨steps, fewer, ended⟩ := ihRight failedRight
        have afterLeft := after_literal (context_left op right env) endedLeft
        exact ⟨left.operations + steps, by omega,
          .prepend afterLeft ((context_right op a env).ends_fault ended)⟩
      · have stuck : (binary op (literal a) (literal b)).reduce env = .error fault := by
          rw [reduce_literals, refused]
          rfl
        exact ⟨left.operations + right.operations, by omega, _,
          after_operands op endedLeft (ends_value evalRight), stop?_of_fault rfl stuck⟩

/-- Reduction comes to the result of evaluation. -/
theorem ends_eval (e : Expr) (env : Environment) :
    ∃ steps, (rewriting env).Ends e steps (e.eval env) := by
  cases evaluated : e.eval env with
  | ok value => exact ⟨e.operations, ends_value evaluated⟩
  | error fault =>
    obtain ⟨steps, _, ended⟩ := ends_fault evaluated
    exact ⟨steps, ended⟩

/-- A step leaves the value of an expression, or its fault, as it was. -/
theorem eval_of_reduce {e next : Expr} (stepped : e.reduce env = .ok next) :
    next.eval env = e.eval env := by
  obtain ⟨_, ended⟩ := ends_eval e env
  obtain ⟨_, onward⟩ := ends_eval next env
  exact ((onward.cons stepped).unique ended).2

/-- A step that fails shows the fault of evaluation. -/
theorem eval_of_reduce_fault {e : Expr} {fault : Fault} (reducible : e.isReducible = true)
    (failed : e.reduce env = .error fault) : e.eval env = .error fault := by
  obtain ⟨_, ended⟩ := ends_eval e env
  exact (ended.unique (ends_of_stuck reducible failed)).2

end Expr

namespace Stmt

def rewriting : Rewriting (Stmt × Environment) Environment where
  step state := state.1.reduce state.2
  value? state := if state.1.isReducible then none else some state.2
  value_stops := by
    rintro ⟨s, env⟩ final normal next stepped
    cases s with
    | skip => cases stepped
    | _ => cases normal

variable {env : Environment}

theorem isReducible_of_reduce {s : Stmt} {next : Stmt × Environment}
    (stepped : s.reduce env = .ok next) : s.isReducible = true := by
  cases s with
  | skip => cases stepped
  | _ => rfl

theorem reduce_assign {value : Expr} (reducible : value.isReducible = true) (name : String)
    (env : Environment) :
    (assign name value).reduce env = (value.reduce env).map fun e => (assign name e, env) := by
  cases value with
  | literal v => cases reducible
  | _ => rfl

theorem reduce_ifThenElse {condition : Expr} (reducible : condition.isReducible = true)
    (consequence alternative : Stmt) (env : Environment) :
    (ifThenElse condition consequence alternative).reduce env =
      (condition.reduce env).map fun e => (ifThenElse e consequence alternative, env) := by
  cases condition with
  | literal v => cases reducible
  | _ => rfl

theorem reduce_branch (value : Value) (consequence alternative : Stmt) (env : Environment) :
    (ifThenElse (.literal value) consequence alternative).reduce env =
      value.asCondition.map fun truth => (if truth then consequence else alternative, env) := rfl

theorem reduce_seq {first : Stmt} (reducible : first.isReducible = true) (second : Stmt)
    (env : Environment) :
    (seq first second).reduce env =
      (first.reduce env).map fun state => (seq state.1 second, state.2) := by
  cases first with
  | skip => cases reducible
  | _ => rfl

/-- A step of the expression is a step of the assignment. -/
theorem context_assign (name : String) (env : Environment) :
    Context (Expr.rewriting env) rewriting fun e => (assign name e, env) := by
  refine .of_step_eq (fun _ _ => rfl) fun value normal => ?_
  exact reduce_assign ((Expr.asValue?_eq_none_iff value).mp normal) name env

/-- A step of the condition is a step of the conditional. -/
theorem context_condition (consequence alternative : Stmt) (env : Environment) :
    Context (Expr.rewriting env) rewriting
      fun e => (ifThenElse e consequence alternative, env) := by
  refine .of_step_eq (fun _ _ => rfl) fun condition normal => ?_
  exact reduce_ifThenElse ((Expr.asValue?_eq_none_iff condition).mp normal) _ _ env

/-- A step of the first statement is a step of the sequence. -/
theorem context_first (second : Stmt) :
    Context rewriting rewriting fun state => (seq state.1 second, state.2) := by
  refine .of_step_eq (fun _ _ => rfl) fun state normal => ?_
  exact reduce_seq (by simpa [rewriting] using normal) second state.2

theorem ends_skip (env : Environment) : rewriting.Ends (skip, env) 0 (.ok env) :=
  .of_stop (stop?_of_value rfl)

theorem eq_skip_of_value {state : Stmt × Environment} {final : Environment}
    (normal : rewriting.value? state = some final) : state = (skip, final) := by
  obtain ⟨s, env⟩ := state
  cases s with
  | skip =>
    cases normal
    rfl
  | _ => cases normal

/-- A condition that has come to a truth value chooses its branch. -/
theorem step_branch {value : Value} {truth : Bool} (chosen : value.asCondition = .ok truth)
    (consequence alternative : Stmt) (env : Environment) :
    rewriting.step (ifThenElse (.literal value) consequence alternative, env) =
      .ok (if truth then consequence else alternative, env) := by
  change (ifThenElse (.literal value) consequence alternative).reduce env = _
  rw [reduce_branch, chosen]
  rfl

/-- A condition with a truth value is reduced and then chooses its branch. -/
theorem after_condition {condition : Expr} {truth : Bool} (holds : condition.holds env = .ok truth)
    (consequence alternative : Stmt) :
    rewriting.after (condition.operations + 1) (ifThenElse condition consequence alternative, env) =
      .ok (if truth then consequence else alternative, env) := by
  obtain ⟨value, evaluated, chosen⟩ := bind_eq_ok_iff.mp holds
  have reached := Expr.after_literal (context_condition consequence alternative env)
    (Expr.ends_value evaluated)
  rw [after_add reached, after_succ_of_ok (step_branch chosen consequence alternative env)]
  rfl

/-- A condition without a truth value is reduced to where the conditional fails. -/
theorem stuck_of_condition_fault {condition : Expr} {fault : Fault}
    (failed : condition.holds env = .error fault) (consequence alternative : Stmt) :
    ∃ steps e, (Expr.rewriting env).after steps condition = .ok e ∧
      rewriting.stop? (ifThenElse e consequence alternative, env) = some (.error fault) := by
  obtain unevaluated | ⟨value, evaluated, mismatch⟩ := bind_eq_error_iff.mp failed
  · obtain ⟨steps, _, e, reached, stopped⟩ := Expr.ends_fault unevaluated
    exact ⟨steps, e, reached, (context_condition consequence alternative env).stop_fault stopped⟩
  · obtain ⟨e, reached, stopped⟩ := Expr.ends_value evaluated
    obtain rfl := (Expr.asValue?_eq_some_iff e value).mp (stop?_eq_ok_iff.mp stopped)
    have stuck : rewriting.step (ifThenElse (.literal value) consequence alternative, env) =
        .error fault := by
      change (ifThenElse (.literal value) consequence alternative).reduce env = _
      rw [reduce_branch, mismatch]
      rfl
    exact ⟨condition.operations, _, reached, stop?_of_fault rfl stuck⟩

/-- A condition without a truth value makes the conditional fail. -/
theorem ends_condition_fault {condition : Expr} {fault : Fault}
    (failed : condition.holds env = .error fault) (consequence alternative : Stmt) :
    ∃ steps, rewriting.Ends (ifThenElse condition consequence alternative, env) steps
      (.error fault) := by
  obtain ⟨steps, e, reached, stuck⟩ := stuck_of_condition_fault failed consequence alternative
  exact ⟨steps, _, (context_condition consequence alternative env).after reached, stuck⟩

/-- When the first statement is done, the sequence goes on with the second. -/
theorem after_first {first : Stmt} {middle : Environment} {steps : Nat}
    (ended : rewriting.Ends (first, env) steps (.ok middle)) (second : Stmt) :
    rewriting.after (steps + 1) (seq first second, env) = .ok (second, middle) := by
  obtain ⟨state, normal, reached⟩ := (context_first second).after_value ended
  obtain rfl := eq_skip_of_value normal
  have stepped : rewriting.step (seq skip second, middle) = .ok (second, middle) := rfl
  rw [after_add reached, after_succ_of_ok stepped]
  rfl

/-- An assignment is over with the step that follows on the reduction of its value. -/
theorem ends_assign {value : Expr} {v : Value} (evaluated : value.eval env = .ok v)
    (name : String) :
    rewriting.Ends (assign name value, env) (value.operations + 1) (.ok (env.insert name v)) := by
  have reached := Expr.after_literal (context_assign name env) (Expr.ends_value evaluated)
  have stored : rewriting.step (assign name (.literal v), env) =
      .ok (skip, env.insert name v) := rfl
  exact .prepend reached ((ends_skip _).cons stored)

/-- A conditional ends as the branch that its condition chooses. -/
theorem ends_ifThenElse {condition : Expr} {truth : Bool} {consequence alternative : Stmt}
    {steps : Nat} {result : Result} (holds : condition.holds env = .ok truth)
    (ended : rewriting.Ends (if truth then consequence else alternative, env) steps result) :
    rewriting.Ends (ifThenElse condition consequence alternative, env)
      (condition.operations + 1 + steps) result :=
  .prepend (after_condition holds consequence alternative) ended

/-- A sequence whose first statement comes to an end ends as the second. -/
theorem ends_seq {first second : Stmt} {middle : Environment} {before after : Nat}
    {result : Result} (passed : rewriting.Ends (first, env) before (.ok middle))
    (ended : rewriting.Ends (second, middle) after result) :
    rewriting.Ends (seq first second, env) (before + 1 + after) result :=
  .prepend (after_first passed second) ended

/-- A loop ends as its unrolling, one step later. -/
theorem ends_of_unrolled {condition : Expr} {body : Stmt} {steps : Nat} {result : Result}
    (ended : rewriting.Ends (ifThenElse condition (seq body (whileDo condition body)) skip, env)
      steps result) :
    rewriting.Ends (whileDo condition body, env) (steps + 1) result := by
  have unrolled : rewriting.step (whileDo condition body, env) =
      .ok (ifThenElse condition (seq body (whileDo condition body)) skip, env) := rfl
  exact ended.cons unrolled

/-- Reduction makes the runs of a loop, if it makes those of the body. -/
private theorem ends_of_iterates {condition : Expr} {body : Stmt} {units : Nat} {result : Result}
    (bodyEnds : ∀ {env units result}, body.Yields env units result →
      ∃ steps, rewriting.Ends (body, env) steps result)
    (run : Iterates condition body.Yields env units result) :
    ∃ steps, rewriting.Ends (whileDo condition body, env) steps result := by
  induction run with
  | conditionFault failed =>
    obtain ⟨steps, ended⟩ := ends_condition_fault failed (seq body (whileDo condition body)) skip
    exact ⟨_, ends_of_unrolled ended⟩
  | @done env exit => exact ⟨_, ends_of_unrolled (ends_ifThenElse exit (ends_skip env))⟩
  | bodyFault enter failed =>
    obtain ⟨steps, ended⟩ := bodyEnds failed
    have inLoop := (context_first (whileDo condition body)).ends_fault ended
    exact ⟨_, ends_of_unrolled (ends_ifThenElse enter inLoop)⟩
  | again enter iterated _ ih =>
    obtain ⟨steps, ended⟩ := bodyEnds iterated
    obtain ⟨more, onward⟩ := ih
    exact ⟨_, ends_of_unrolled (ends_ifThenElse enter (ends_seq ended onward))⟩

/-- Reduction makes the run of a statement. -/
theorem Yields.ends {s : Stmt} {units : Nat} {result : Result} (run : s.Yields env units result) :
    ∃ steps, rewriting.Ends (s, env) steps result := by
  induction s generalizing env units result with
  | assign name value =>
    obtain ⟨rfl, rfl⟩ := run
    cases evaluated : value.eval env with
    | error fault =>
      obtain ⟨steps, _, ended⟩ := Expr.ends_fault evaluated
      exact ⟨steps, (context_assign name env).ends_fault ended⟩
    | ok v => exact ⟨_, ends_assign evaluated name⟩
  | skip =>
    obtain ⟨rfl, rfl⟩ := run
    exact ⟨0, ends_skip env⟩
  | ifThenElse condition consequence alternative ihConsequence ihAlternative =>
    obtain ⟨fault, failed, rfl, rfl⟩ | ⟨truth, rest, holds, taken, rfl⟩ :=
      yields_ifThenElse_iff.mp run
    · exact ends_condition_fault failed consequence alternative
    · have branch : ∃ steps,
          rewriting.Ends (if truth then consequence else alternative, env) steps result := by
        cases truth with
        | true => exact ihConsequence taken
        | false => exact ihAlternative taken
      obtain ⟨steps, ended⟩ := branch
      exact ⟨_, ends_ifThenElse holds ended⟩
  | seq first second ihFirst ihSecond =>
    obtain ⟨before, fault, failed, rfl, rfl⟩ | ⟨middle, before, after, passed, ended, rfl⟩ := run
    · obtain ⟨steps, ended⟩ := ihFirst failed
      exact ⟨steps, (context_first second).ends_fault ended⟩
    · obtain ⟨steps, done⟩ := ihFirst passed
      obtain ⟨more, onward⟩ := ihSecond ended
      exact ⟨_, ends_seq done onward⟩
  | whileDo condition body ih =>
    obtain ⟨rest, iterates, rfl⟩ := run
    exact ends_of_iterates ih iterates

theorem yields_skip (env : Environment) : skip.Yields env 1 (.ok env) := ⟨rfl, rfl⟩

/-- The run of a loop is that of its unrolling, which tests once and comes back. -/
private theorem yields_of_unrolled {condition : Expr} {body : Stmt} {units : Nat} {result : Result}
    (run : (ifThenElse condition (seq body (whileDo condition body)) skip).Yields env units
      result) : ∃ units, (whileDo condition body).Yields env units result := by
  obtain ⟨fault, failed, rfl, rfl⟩ | ⟨truth, _, holds, taken, rfl⟩ := yields_ifThenElse_iff.mp run
  · exact ⟨_, _, .conditionFault failed, rfl⟩
  · cases truth with
    | true =>
      obtain ⟨before, fault, failed, rfl, rfl⟩ | ⟨middle, before, _, passed, again, rfl⟩ := taken
      · exact ⟨_, _, .bodyFault holds failed, rfl⟩
      · obtain ⟨rest, onward, rfl⟩ := again
        exact ⟨_, _, .again holds passed onward, rfl⟩
    | false =>
      obtain ⟨rfl, rfl⟩ := taken
      exact ⟨_, _, .done holds, rfl⟩

/-- A run of the condition's reduct is a run of the conditional. -/
private theorem yields_of_condition {condition next : Expr}
    (same : next.holds env = condition.holds env) {consequence alternative : Stmt} {units : Nat}
    {result : Result} (run : (ifThenElse next consequence alternative).Yields env units result) :
    (ifThenElse condition consequence alternative).Yields env units result := by
  rw [Yields] at run ⊢
  rwa [same] at run

theorem holds_of_reduce {e next : Expr} (stepped : e.reduce env = .ok next) :
    next.holds env = e.holds env := by
  rw [Expr.holds, Expr.holds, Expr.eval_of_reduce stepped]

/-- What a statement comes to after a step, it comes to. -/
theorem yields_of_reduce {s : Stmt} {next : Stmt × Environment}
    (stepped : s.reduce env = .ok next) {units : Nat} {result : Result}
    (run : next.1.Yields next.2 units result) : ∃ units, s.Yields env units result := by
  induction s generalizing env next units result with
  | assign name value =>
    by_cases reducible : value.isReducible = true
    · rw [reduce_assign reducible] at stepped
      obtain ⟨e, reduced, rfl⟩ := map_eq_ok_iff.mp stepped
      obtain ⟨rfl, rfl⟩ := run
      exact ⟨1, rfl, by rw [Expr.eval_of_reduce reduced]⟩
    · obtain ⟨v, rfl⟩ := (Expr.isReducible_eq_false_iff value).mp (by simpa using reducible)
      cases stepped
      obtain ⟨rfl, rfl⟩ := run
      exact ⟨1, rfl, rfl⟩
  | skip => cases stepped
  | ifThenElse condition consequence alternative _ _ =>
    by_cases reducible : condition.isReducible = true
    · rw [reduce_ifThenElse reducible] at stepped
      obtain ⟨e, reduced, rfl⟩ := map_eq_ok_iff.mp stepped
      exact ⟨units, yields_of_condition (holds_of_reduce reduced) run⟩
    · obtain ⟨v, rfl⟩ := (Expr.isReducible_eq_false_iff condition).mp (by simpa using reducible)
      rw [reduce_branch] at stepped
      obtain ⟨truth, chosen, rfl⟩ := map_eq_ok_iff.mp stepped
      exact ⟨units + 1, yields_ifThenElse_iff.mpr (.inr ⟨truth, units, chosen, run, rfl⟩)⟩
  | seq first second ihFirst _ =>
    by_cases reducible : first.isReducible = true
    · rw [reduce_seq reducible] at stepped
      obtain ⟨state, reduced, rfl⟩ := map_eq_ok_iff.mp stepped
      obtain ⟨before, fault, failed, rfl, rfl⟩ | ⟨middle, before, after, passed, ended, rfl⟩ := run
      · obtain ⟨before, failed⟩ := ihFirst reduced failed
        exact ⟨before + 1, .inl ⟨before, fault, failed, rfl, rfl⟩⟩
      · obtain ⟨before, passed⟩ := ihFirst reduced passed
        exact ⟨before + after + 1, .inr ⟨middle, before, after, passed, ended, rfl⟩⟩
    · obtain rfl := (isReducible_eq_false_iff first).mp (by simpa using reducible)
      cases stepped
      exact ⟨1 + units + 1, .inr ⟨env, 1, units, yields_skip env, run, rfl⟩⟩
  | whileDo condition body _ =>
    cases stepped
    exact yields_of_unrolled run

/-- A step that fails shows the fault of the statement. -/
theorem yields_of_reduce_fault {s : Stmt} {fault : Fault} (reducible : s.isReducible = true)
    (failed : s.reduce env = .error fault) : ∃ units, s.Yields env units (.error fault) := by
  induction s generalizing env with
  | assign name value =>
    by_cases open_value : value.isReducible = true
    · rw [reduce_assign open_value] at failed
      have reduced := map_eq_error_iff.mp failed
      exact ⟨1, rfl, by rw [Expr.eval_of_reduce_fault open_value reduced]; rfl⟩
    · obtain ⟨v, rfl⟩ := (Expr.isReducible_eq_false_iff value).mp (by simpa using open_value)
      cases failed
  | skip => cases reducible
  | ifThenElse condition consequence alternative _ _ =>
    have unevaluated : condition.holds env = .error fault := by
      by_cases open_condition : condition.isReducible = true
      · rw [reduce_ifThenElse open_condition] at failed
        have reduced := map_eq_error_iff.mp failed
        rw [Expr.holds, Expr.eval_of_reduce_fault open_condition reduced]
        rfl
      · obtain ⟨v, rfl⟩ :=
          (Expr.isReducible_eq_false_iff condition).mp (by simpa using open_condition)
        rw [reduce_branch] at failed
        exact map_eq_error_iff.mp failed
    exact ⟨1, yields_ifThenElse_iff.mpr (.inl ⟨fault, unevaluated, rfl, rfl⟩)⟩
  | seq first second ihFirst _ =>
    by_cases open_first : first.isReducible = true
    · rw [reduce_seq open_first] at failed
      obtain ⟨before, run⟩ := ihFirst open_first (map_eq_error_iff.mp failed)
      exact ⟨before + 1, .inl ⟨before, fault, run, rfl, rfl⟩⟩
    · obtain rfl := (isReducible_eq_false_iff first).mp (by simpa using open_first)
      cases failed
  | whileDo condition body _ => cases failed

/-- Reduction comes to the results of the runs of a statement, and to no others. -/
theorem yields_iff_ends (s : Stmt) (env : Environment) (result : Result) :
    (∃ units, s.Yields env units result) ↔
      ∃ steps, rewriting.Ends (s, env) steps result := by
  constructor
  · rintro ⟨units, run⟩
    exact run.ends
  · rintro ⟨steps, ended⟩
    induction steps generalizing s env with
    | zero =>
      have stopped := ends_zero_iff.mp ended
      cases result with
      | ok final =>
        cases eq_skip_of_value (stop?_eq_ok_iff.mp stopped)
        exact ⟨1, yields_skip env⟩
      | error fault =>
        obtain ⟨normal, failed⟩ := stop?_eq_error_iff.mp stopped
        exact yields_of_reduce_fault (by simpa [rewriting] using normal) failed
    | succ steps ih =>
      obtain ⟨next, stepped, onward⟩ := ends_succ_iff.mp ended
      obtain ⟨units, run⟩ := ih next.1 next.2 onward
      exact yields_of_reduce stepped run

end Stmt

end Concord
