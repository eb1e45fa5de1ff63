import Concord.Proofs.Loops

/-! # Loops that never end

A loop has no end when each test of its condition is true and each run of its body comes to an
environment from which it is so again. The rules for statements give such a loop no result, however
long it has been going on, and so no strategy has an answer for it. Only the budget ends its runs,
and no other result can come before. The machine is then left where the budget has taken it: in a
state on the way, after one reduction for every unit that it was granted.
-/

namespace Concord

/-- One unit more than the limit allows is counted and refused. -/
theorem Gas.charge_past_limit {limit : UInt64} (bounded : limit.toNat < 2 ^ 64 - 1) :
    (limited limit).charge (limit.toNat + 1) =
      (.error (.stepLimitExceeded limit), { used := limit + 1, limit := some limit }) := by
  have unused : (limited limit).used.toNat = 0 := rfl
  have room : max (limited limit).used.toNat limit.toNat + 1 < UInt64.size := by
    rw [unused, Nat.zero_max, ← Nat.lt_sub_iff_add_lt]
    exact bounded
  rw [charge_of_exceeded rfl room (Nat.succ_ne_zero _) (by omega), unused, Nat.zero_max,
    UInt64.ofNat_add, UInt64.ofNat_toNat]
  rfl

/-- A loop that can always go around once more has no result. -/
theorem Stmt.not_iterates_of_forever {condition : Expr} {body : Stmt}
    {Invariant : Environment → Prop}
    (forever : ∀ env, Invariant env → condition.holds env = .ok true ∧
      ∃ next units, body.Yields env units (.ok next) ∧ Invariant next)
    {env : Environment} (start : Invariant env) {units : ℕ} {result : Result} :
    ¬ Iterates condition body.Yields env units result := by
  intro run
  induction run with
  | conditionFault failed => cases (forever _ start).1.symm.trans failed
  | done exit => cases (forever _ start).1.symm.trans exit
  | bodyFault _ failed =>
    obtain ⟨_, next, _, passed, _⟩ := forever _ start
    cases (passed.unique failed).2
  | again _ iterated _ ih =>
    obtain ⟨_, next, _, passed, kept⟩ := forever _ start
    cases (passed.unique iterated).2
    exact ih kept

namespace Machine

variable {machine : Machine} {limit : UInt64}

/-- A machine whose reduction has no end runs until its limit stops it: after as many reductions as
the limit allows, with a statement that could be reduced further. -/
theorem exists_run_of_endless
    (endless : ∀ steps result, ¬ Stmt.rewriting.Ends machine.state steps result)
    (fresh : machine.gas = .limited limit) (bounded : limit.toNat < 2 ^ 64 - 1) (trace : Trace) :
    ∃ fuel last left,
      run fuel machine trace = some (.error (.stepLimitExceeded limit), last, left) ∧
      machine.Reduces last limit.toNat ∧ last.gas.used = limit + 1 ∧
      last.statement.isReducible = true := by
  obtain ⟨steps, _, result, ended⟩ | ⟨state, reached⟩ :=
    Stmt.rewriting.ends_or_after (limit.toNat + 1) machine.state
  · exact absurd ended (endless steps result)
  have paid : (run (limit.toNat + 1) machine trace).map shown =
      machine.gas.pay (limit.toNat + 1) none := finish_starves reached _
  rw [fresh, Gas.pay_of_error (Gas.charge_past_limit bounded)] at paid
  obtain ⟨⟨_, next, left⟩, ran, same⟩ := Option.map_eq_some_iff.mp paid
  obtain ⟨rfl, gas⟩ := Prod.mk.inj same
  obtain ⟨reductions, last, within, reduces, uses, reducible, stepped⟩ := progress_of_finish ran
  obtain ⟨kept, _⟩ := step_eq_error stepped
  have counted : (0 + .ofNat reductions + 1 : UInt64) = limit + 1 := by
    rw [kept, uses, fresh] at gas
    exact congrArg Gas.used gas
  obtain rfl : reductions = limit.toNat := by
    have fits : reductions < UInt64.size := within.trans_le limit.toNat_lt_size
    rw [UInt64.add_left_inj, UInt64.zero_add] at counted
    rw [← counted, UInt64.toNat_ofNat_of_lt' fits]
  exact ⟨_, next, left, ran, ⟨by rw [reduces.state, kept]; rfl, by rw [kept, reduces.steps]⟩,
    congrArg Gas.used gas, by rw [kept]; exact reducible⟩

end Machine

namespace Strategy

variable {given : Strategy} {condition : Expr} {body : Stmt} {Invariant : Environment → Prop}
  {env : Environment}

/-- What can always go around once more comes to no result by the rules for statements. -/
theorem not_yields_of_forever
    (forever : ∀ env, Invariant env → condition.eval env = .ok (.boolean true) ∧
      ∃ next, given.Answers body env (.ok next) ∧ Invariant next)
    (start : Invariant env) (result : Result) :
    ¬ ∃ units, (Stmt.whileDo condition body).Yields env units result := by
  rintro ⟨_, _, iterates, _⟩
  refine Stmt.not_iterates_of_forever (fun env holds => ?_) start iterates
  obtain ⟨enter, next, answer, kept⟩ := forever env holds
  obtain ⟨units, run⟩ := answers_iff_yields.mp answer
  exact ⟨Expr.holds_eq_ok_iff.mpr enter, next, units, run, kept⟩

/-- The budget ends every run of a loop that goes on forever, under every strategy, and nothing else
does. The machine has then made as many steps as its limit allows, has used one unit more, and its
statement could be reduced further. -/
theorem forever_exhausts_budget
    (forever : ∀ env, Invariant env → condition.eval env = .ok (.boolean true) ∧
      ∃ next, given.Answers body env (.ok next) ∧ Invariant next)
    (start : Invariant env) {limit : UInt64} (bounded : limit.toNat < 2 ^ 64 - 1) :
    (∀ strategy : Strategy, ∃ left, strategy.Returns (.whileDo condition body) env
      (.limited limit) (.error (.stepLimitExceeded limit)) left) ∧
    ∀ sink trace, ∃ fuel last left,
      Machine.run fuel
        { statement := .whileDo condition body, environment := env, gas := .limited limit, sink }
        trace = some (.error (.stepLimitExceeded limit), last, left) ∧
      Stmt.rewriting.after limit.toNat (.whileDo condition body, env) = .ok last.state ∧
      last.steps = limit ∧ last.gas.used.toNat = limit.toNat + 1 ∧
      last.statement.isReducible = true := by
  have endless := not_yields_of_forever forever start
  constructor
  · intro strategy
    obtain ⟨units, result, bill⟩ | starves :=
      bill_or_starves strategy (.whileDo condition body) env
    · exact absurd (bill_iff_yields.mp ⟨units, bill⟩) (endless result)
    · exact ⟨_, starves.returns (Gas.charge_past_limit bounded)⟩
  · intro sink trace
    let machine : Machine :=
      { statement := .whileDo condition body, environment := env, gas := .limited limit, sink }
    have unending (steps : ℕ) (result : Result) :
        ¬ Stmt.rewriting.Ends machine.state steps result := by
      intro ended
      exact endless result ((Stmt.yields_iff_ends _ _ _).mpr ⟨steps, ended⟩)
    obtain ⟨fuel, last, left, ran, reduces, used, reducible⟩ :=
      Machine.exists_run_of_endless unending rfl bounded trace
    refine ⟨fuel, last, left, ran, reduces.state, ?_, ?_, reducible⟩
    · rw [reduces.steps, UInt64.ofNat_toNat, UInt64.zero_add]
    · rw [used, UInt64.toNat_add, UInt64.toNat_one]
      exact Nat.mod_eq_of_lt (by omega)

private def copiesForever : Stmt := .whileDo (.var "x") (.assign "y" (.var "x"))

/-- From `{x: true}` the loop goes on forever, although its first iteration changes the
environment. After seven steps the machine is in the middle of the second one. -/
theorem forever_exhausts_budget_copying :
    (∃ left, denotational.Returns copiesForever (.ofList [("x", .boolean true)]) (.limited 7)
      (.error (.stepLimitExceeded 7)) left) ∧
    ∃ fuel last left,
      Machine.run fuel
        { statement := copiesForever, environment := .ofList [("x", .boolean true)],
          gas := .limited 7, sink := .silent }
        {} = some (.error (.stepLimitExceeded 7), last, left) ∧
      last.steps = 7 ∧ last.gas.used.toNat = 8 ∧ last.statement.isReducible = true := by
  have forever (env : Environment) (bound : env.lookup "x" = .ok (.boolean true)) :
      (Expr.var "x").eval env = .ok (.boolean true) ∧
        ∃ next, bigStep.Answers (.assign "y" (.var "x")) env (.ok next) ∧
          next.lookup "x" = .ok (.boolean true) := by
    refine ⟨bound, env.insert "y" (.boolean true), answers_iff_yields.mpr ⟨1, rfl, ?_⟩, ?_⟩
    · rw [Expr.eval, bound]
      rfl
    · rw [Environment.lookup_eq_ok_iff] at bound ⊢
      rw [env.get?_insert_of_ne _ (by decide), bound]
  have start : (Environment.ofList [("x", .boolean true)]).lookup "x" = .ok (.boolean true) := rfl
  have bounded : (7 : UInt64).toNat < 2 ^ 64 - 1 := by decide
  obtain ⟨strategies, machine⟩ := forever_exhausts_budget forever start bounded
  obtain ⟨fuel, last, left, ran, _, steps, used, reducible⟩ := machine .silent {}
  exact ⟨strategies denotational, fuel, last, left, ran, steps, used, reducible⟩

end Strategy

end Concord
