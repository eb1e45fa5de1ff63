import Concord.Outcome
import Concord.Proofs.NaturalSemantics
import Concord.Proofs.Rewriting

/-! # What a run without a budget can come to

Nothing is left open when nothing limits a run: it comes to one result, for one number of units. Its
fault is the program's own; that a budget ran out is never among them.
-/

namespace Concord

/-- A condition has one truth value. -/
private theorem truth_unique {condition : Expr} {env : Environment} {decided again : Bool}
    (first : condition.holds env = .ok decided) (second : condition.holds env = .ok again) :
    decided = again :=
  Except.ok.inj (first.symm.trans second)

/-- A loop whose iterations leave nothing open leaves nothing open. -/
theorem Iterates.unique {condition : Expr} {body : Environment → Nat → Result → Prop}
    {env : Environment} {units other : Nat} {result otherResult : Result}
    (run : Iterates condition body env units result)
    (again : Iterates condition body env other otherResult)
    (bodyUnique : ∀ {env units other result otherResult}, body env units result →
      body env other otherResult → units = other ∧ result = otherResult) :
    units = other ∧ result = otherResult := by
  induction run generalizing other otherResult with
  | conditionFault failed =>
    cases again with
    | conditionFault failedAgain =>
      cases failed.symm.trans failedAgain
      exact ⟨rfl, rfl⟩
    | done exit => cases failed.symm.trans exit
    | bodyFault enter _ => cases failed.symm.trans enter
    | again enter _ _ => cases failed.symm.trans enter
  | done exit =>
    cases again with
    | conditionFault failed => cases exit.symm.trans failed
    | done _ => exact ⟨rfl, rfl⟩
    | bodyFault enter _ => cases truth_unique exit enter
    | again enter _ _ => cases truth_unique exit enter
  | bodyFault enter failed =>
    cases again with
    | conditionFault refused => cases enter.symm.trans refused
    | done exit => cases truth_unique enter exit
    | bodyFault _ failedAgain =>
      obtain ⟨rfl, same⟩ := bodyUnique failed failedAgain
      exact ⟨rfl, same⟩
    | again _ iterated _ => cases (bodyUnique failed iterated).2
  | again enter iterated _ ih =>
    cases again with
    | conditionFault refused => cases enter.symm.trans refused
    | done exit => cases truth_unique enter exit
    | bodyFault _ failed => cases (bodyUnique iterated failed).2
    | again _ iteratedAgain onward =>
      obtain ⟨rfl, same⟩ := bodyUnique iterated iteratedAgain
      cases same
      obtain ⟨rfl, rfl⟩ := ih onward
      exact ⟨rfl, rfl⟩

/-- A statement that nothing limits comes to one result, for one number of units. -/
theorem Stmt.Yields.unique {s : Stmt} {env : Environment} {units other : Nat}
    {result otherResult : Result} (run : s.Yields env units result)
    (again : s.Yields env other otherResult) : units = other ∧ result = otherResult := by
  induction s generalizing env units other result otherResult with
  | assign name value =>
    obtain ⟨rfl, rfl⟩ := run
    obtain ⟨rfl, rfl⟩ := again
    exact ⟨rfl, rfl⟩
  | skip =>
    obtain ⟨rfl, rfl⟩ := run
    obtain ⟨rfl, rfl⟩ := again
    exact ⟨rfl, rfl⟩
  | ifThenElse condition consequence alternative ihConsequence ihAlternative =>
    obtain ⟨fault, failed, rfl, rfl⟩ | ⟨truth, rest, holds, taken, rfl⟩ :=
      yields_ifThenElse_iff.mp run <;>
    obtain ⟨otherFault, otherFailed, rfl, rfl⟩ | ⟨otherTruth, otherRest, otherHolds, otherTaken, rfl⟩ :=
      yields_ifThenElse_iff.mp again
    · cases failed.symm.trans otherFailed
      exact ⟨rfl, rfl⟩
    · cases failed.symm.trans otherHolds
    · cases holds.symm.trans otherFailed
    · cases truth_unique holds otherHolds
      cases truth with
      | true =>
        obtain ⟨rfl, rfl⟩ := ihConsequence taken otherTaken
        exact ⟨rfl, rfl⟩
      | false =>
        obtain ⟨rfl, rfl⟩ := ihAlternative taken otherTaken
        exact ⟨rfl, rfl⟩
  | seq first second ihFirst ihSecond =>
    obtain ⟨before, fault, failed, rfl, rfl⟩ | ⟨middle, before, after, passed, ended, rfl⟩ := run <;>
    obtain ⟨otherBefore, otherFault, otherFailed, rfl, rfl⟩ |
      ⟨otherMiddle, otherBefore, otherAfter, otherPassed, otherEnded, rfl⟩ := again
    · obtain ⟨rfl, same⟩ := ihFirst failed otherFailed
      exact ⟨rfl, same⟩
    · cases (ihFirst failed otherPassed).2
    · cases (ihFirst passed otherFailed).2
    · obtain ⟨rfl, same⟩ := ihFirst passed otherPassed
      cases same
      obtain ⟨rfl, rfl⟩ := ihSecond ended otherEnded
      exact ⟨rfl, rfl⟩
  | whileDo condition body ih =>
    obtain ⟨rest, iterates, rfl⟩ := run
    obtain ⟨otherRest, otherIterates, rfl⟩ := again
    obtain ⟨rfl, rfl⟩ := iterates.unique otherIterates ih
    exact ⟨rfl, rfl⟩

/-- The faults that a program can have of its own. No budget is behind them, and no term that was
asked for a step although it is in normal form. -/
inductive Fault.OfProgram : Fault → Prop where
  | undefinedVariable (name : String) : OfProgram (.undefinedVariable name)
  | typeMismatch (detail : String) : OfProgram (.typeMismatch detail)
  | arithmeticOverflow (detail : String) : OfProgram (.arithmeticOverflow detail)

theorem Fault.OfProgram.isExhaustion_eq_false {fault : Fault} (own : fault.OfProgram) :
    fault.isExhaustion = false := by
  cases own <;> rfl

theorem Operator.apply_fault {op : Operator} {left right : Value} {fault : Fault}
    (failed : op.apply left right = .error fault) : fault.OfProgram := by
  cases left <;> cases right <;> simp only [Operator.apply, Operator.onNumbers] at failed
  · split at failed
    · cases failed
    · split at failed <;> cases failed
      exact .arithmeticOverflow _
  all_goals
    cases failed
    exact .typeMismatch _

/-- What an expression fails with is its own fault. -/
theorem Expr.eval_fault {e : Expr} {env : Environment} {fault : Fault}
    (failed : e.eval env = .error fault) : fault.OfProgram := by
  induction e with
  | literal value => cases failed
  | var name =>
    simp only [Expr.eval, Environment.lookup] at failed
    split at failed <;> cases failed
    exact .undefinedVariable name
  | binary op left right ihLeft ihRight =>
    obtain leftFailed | ⟨a, _, rest⟩ := bind_eq_error_iff.mp failed
    · exact ihLeft leftFailed
    · obtain rightFailed | ⟨b, _, applied⟩ := bind_eq_error_iff.mp rest
      · exact ihRight rightFailed
      · exact Operator.apply_fault applied

theorem Expr.holds_fault {condition : Expr} {env : Environment} {fault : Fault}
    (failed : condition.holds env = .error fault) : fault.OfProgram := by
  obtain evaluation | ⟨value, _, undecided⟩ := bind_eq_error_iff.mp failed
  · exact Expr.eval_fault evaluation
  · cases value with
    | number n =>
      cases undecided
      exact .typeMismatch _
    | boolean b => cases undecided

/-- What a statement fails with that nothing limits is its own fault. -/
theorem Stmt.Yields.fault {s : Stmt} {env : Environment} {units : Nat} {fault : Fault}
    (run : s.Yields env units (.error fault)) : fault.OfProgram := by
  induction s generalizing env units with
  | assign name value =>
    exact Expr.eval_fault (map_eq_error_iff.mp run.2.symm)
  | skip => cases run.2
  | ifThenElse condition consequence alternative ihConsequence ihAlternative =>
    obtain ⟨_, failed, rfl, same⟩ | ⟨truth, rest, _, taken, rfl⟩ := yields_ifThenElse_iff.mp run
    · cases same
      exact Expr.holds_fault failed
    · cases truth with
      | true => exact ihConsequence taken
      | false => exact ihAlternative taken
  | seq first second ihFirst ihSecond =>
    obtain ⟨_, _, failed, rfl, same⟩ | ⟨_, _, _, _, ended, rfl⟩ := run
    · cases same
      exact ihFirst failed
    · exact ihSecond ended
  | whileDo condition body ih =>
    obtain ⟨rest, iterates, rfl⟩ := run
    generalize ending : Except.error fault = result at iterates
    induction iterates with
    | conditionFault failed =>
      cases ending
      exact Expr.holds_fault failed
    | done _ => cases ending
    | bodyFault _ failed =>
      cases ending
      exact ih failed
    | again _ _ _ ihOnward => exact ihOnward ending

/-- No statement exhausts a budget that it does not have. -/
theorem Stmt.Yields.settled {s : Stmt} {env : Environment} {units : Nat} {result : Result}
    (run : s.Yields env units result) : isExhausted result = false := by
  cases result with
  | ok final => rfl
  | error fault => exact run.fault.isExhaustion_eq_false

end Concord
