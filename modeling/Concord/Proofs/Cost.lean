import Concord.Proofs.Session
import Concord.Proofs.Threshold

/-! # What a run costs

The machine makes one step for each operation of an expression and a few for each statement, while
evaluation and meaning use one unit for each statement and each iteration, whatever there is to
compute in it. `Stmt.Takes` is the law of the machine's steps, by recursion on the statement. The
other two strategies use at most one unit more than twice as many, and no fewer for a block of
`skip`. So a budget that is enough for the machine, doubled and with one unit more, is enough for
all.
-/

namespace Concord

/-- The iterations that a loop makes before its condition is false, each with the steps that its
body takes. -/
inductive Rounds (condition : Expr) (body : Environment → ℕ → Environment → Prop) :
    Environment → List ℕ → Environment → Prop where
  | done {env : Environment} (exit : condition.holds env = .ok false) :
      Rounds condition body env [] env
  | again {env next final : Environment} {steps : ℕ} {rest : List ℕ}
      (enter : condition.holds env = .ok true) (iterated : body env steps next)
      (onward : Rounds condition body next rest final) :
      Rounds condition body env (steps :: rest) final

namespace Stmt

/-- Reducing the statement takes so many steps and comes to the final environment. -/
def Takes : Stmt → Environment → ℕ → Environment → Prop
  | assign name value, env, steps, final =>
    steps = value.operations + 1 ∧ ∃ v, value.eval env = .ok v ∧ final = env.insert name v
  | skip, env, steps, final => steps = 0 ∧ final = env
  | ifThenElse condition consequence alternative, env, steps, final =>
    ∃ taken, steps = condition.operations + 1 + taken ∧
      (condition.holds env = .ok true ∧ consequence.Takes env taken final ∨
        condition.holds env = .ok false ∧ alternative.Takes env taken final)
  | seq first second, env, steps, final =>
    ∃ middle before after, steps = before + 1 + after ∧
      first.Takes env before middle ∧ second.Takes middle after final
  | whileDo condition body, env, steps, final =>
    ∃ rounds, Rounds condition body.Takes env rounds final ∧
      steps = (rounds.map (3 + condition.operations + ·)).sum + (2 + condition.operations)

/-- The steps of a loop are those of its iterations and those of the last test. -/
private theorem ends_of_rounds {condition : Expr} {body : Stmt} {env final : Environment}
    {rounds : List ℕ}
    (bodyEnds : ∀ {env steps final}, body.Takes env steps final →
      rewriting.Ends (body, env) steps (.ok final))
    (run : Rounds condition body.Takes env rounds final) :
    rewriting.Ends (whileDo condition body, env)
      ((rounds.map (3 + condition.operations + ·)).sum + (2 + condition.operations))
      (.ok final) := by
  induction run with
  | @done env exit =>
    have ended : rewriting.Ends (whileDo condition body, env) (condition.operations + 1 + 0 + 1)
        (.ok env) := ends_of_unrolled (ends_ifThenElse exit (ends_skip env))
    rw [List.map_nil, List.sum_nil]
    convert ended using 1
    omega
  | @again env next final steps rest enter iterated _ ih =>
    have ended := ends_of_unrolled (ends_ifThenElse enter (ends_seq (bodyEnds iterated) ih))
    rw [List.map_cons, List.sum_cons]
    convert ended using 1
    omega

/-- The law gives the steps of the reduction. -/
theorem Takes.ends {s : Stmt} {env final : Environment} {steps : ℕ}
    (run : s.Takes env steps final) : rewriting.Ends (s, env) steps (.ok final) := by
  induction s generalizing env steps final with
  | assign name value =>
    obtain ⟨rfl, v, evaluated, rfl⟩ := run
    exact ends_assign evaluated name
  | skip =>
    obtain ⟨rfl, rfl⟩ := run
    exact ends_skip _
  | ifThenElse condition consequence alternative ihConsequence ihAlternative =>
    obtain ⟨taken, rfl, ⟨holds, branch⟩ | ⟨holds, branch⟩⟩ := run
    · exact ends_ifThenElse holds (ihConsequence branch)
    · exact ends_ifThenElse holds (ihAlternative branch)
  | seq first second ihFirst ihSecond =>
    obtain ⟨middle, before, after, rfl, passed, ended⟩ := run
    exact ends_seq (ihFirst passed) (ihSecond ended)
  | whileDo condition body ih =>
    obtain ⟨rounds, run, rfl⟩ := run
    exact ends_of_rounds ih run

/-- Every run uses a unit for its statement. -/
theorem Yields.one_le {s : Stmt} {env : Environment} {units : ℕ} {result : Result}
    (run : s.Yields env units result) : 1 ≤ units := by
  cases s with
  | assign name value =>
    obtain ⟨rfl, _⟩ := run
    exact le_rfl
  | skip =>
    obtain ⟨rfl, _⟩ := run
    exact le_rfl
  | ifThenElse condition consequence alternative =>
    obtain ⟨_, _, rfl, _⟩ | ⟨_, rest, _, _, rfl⟩ := yields_ifThenElse_iff.mp run <;> omega
  | seq first second =>
    obtain ⟨_, _, _, rfl, _⟩ | ⟨_, _, _, _, _, rfl⟩ := run <;> omega
  | whileDo condition body =>
    obtain ⟨_, _, rfl⟩ := run
    omega

/-- An iteration uses a unit of its own and those of its body, and takes three steps of its own. -/
private theorem rounds_of_iterates {condition : Expr} {body : Stmt} {env final : Environment}
    {units : ℕ}
    (bodyTakes : ∀ {env units final}, body.Yields env units (.ok final) →
      ∃ steps, body.Takes env steps final ∧ units ≤ 2 * steps + 1)
    (run : Iterates condition body.Yields env units (.ok final)) :
    ∃ rounds, Rounds condition body.Takes env rounds final ∧
      units ≤ 2 * (rounds.map (3 + condition.operations + ·)).sum := by
  generalize ending : (.ok final : Result) = result at run
  induction run with
  | conditionFault _ => cases ending
  | done exit =>
    cases ending
    exact ⟨[], .done exit, le_rfl⟩
  | bodyFault _ _ => cases ending
  | again enter iterated _ ih =>
    obtain ⟨steps, takes, bound⟩ := bodyTakes iterated
    obtain ⟨rounds, onward, boundRest⟩ := ih ending
    refine ⟨steps :: rounds, .again enter takes onward, ?_⟩
    rw [List.map_cons, List.sum_cons]
    omega

/-- A run that comes to an environment takes steps by the law, and uses at most one unit more than
twice as many. -/
theorem Yields.takes {s : Stmt} {env final : Environment} {units : ℕ}
    (run : s.Yields env units (.ok final)) :
    ∃ steps, s.Takes env steps final ∧ units ≤ 2 * steps + 1 := by
  induction s generalizing env units final with
  | assign name value =>
    obtain ⟨rfl, ended⟩ := run
    obtain ⟨v, evaluated, stored⟩ := map_eq_ok_iff.mp ended.symm
    exact ⟨_, ⟨rfl, v, evaluated, stored.symm⟩, by omega⟩
  | skip =>
    obtain ⟨rfl, ended⟩ := run
    cases ended
    exact ⟨0, ⟨rfl, rfl⟩, le_rfl⟩
  | ifThenElse condition consequence alternative ihConsequence ihAlternative =>
    obtain ⟨fault, _, _, ended⟩ | ⟨truth, rest, holds, branch, rfl⟩ :=
      yields_ifThenElse_iff.mp run
    · cases ended
    · cases truth with
      | true =>
        obtain ⟨taken, takes, bound⟩ := ihConsequence branch
        exact ⟨_, ⟨taken, rfl, .inl ⟨holds, takes⟩⟩, by omega⟩
      | false =>
        obtain ⟨taken, takes, bound⟩ := ihAlternative branch
        exact ⟨_, ⟨taken, rfl, .inr ⟨holds, takes⟩⟩, by omega⟩
  | seq first second ihFirst ihSecond =>
    obtain ⟨_, fault, _, _, ended⟩ | ⟨middle, before, after, passed, ended, rfl⟩ := run
    · cases ended
    · obtain ⟨stepsBefore, takesBefore, boundBefore⟩ := ihFirst passed
      obtain ⟨stepsAfter, takesAfter, boundAfter⟩ := ihSecond ended
      exact ⟨_, ⟨middle, _, _, rfl, takesBefore, takesAfter⟩, by omega⟩
  | whileDo condition body ih =>
    obtain ⟨rest, iterates, rfl⟩ := run
    obtain ⟨rounds, run, bound⟩ := rounds_of_iterates ih iterates
    exact ⟨_, ⟨rounds, run, rfl⟩, by omega⟩

/-- The law gives the steps of the reduction and no others. -/
theorem takes_iff_ends {s : Stmt} {env final : Environment} {steps : ℕ} :
    s.Takes env steps final ↔ rewriting.Ends (s, env) steps (.ok final) := by
  constructor
  · exact Takes.ends
  · intro ended
    obtain ⟨units, run⟩ := (yields_iff_ends s env (.ok final)).mpr ⟨steps, ended⟩
    obtain ⟨others, takes, _⟩ := run.takes
    obtain ⟨rfl, _⟩ := ended.unique takes.ends
    exact takes

/-- A sequence that comes to an environment passes through one between its parts. -/
theorem yields_seq_ok_iff {first second : Stmt} {env final : Environment} {units : ℕ} :
    (seq first second).Yields env units (.ok final) ↔
      ∃ middle before after, first.Yields env before (.ok middle) ∧
        second.Yields middle after (.ok final) ∧ units = before + after + 1 := by
  rw [Yields]
  simp

end Stmt

namespace Strategy

/-- Under every strategy the bill of a sequence is made of those of its parts, and of one unit for
the joint between them. -/
theorem bill_seq_iff {strategy : Strategy} {first second : Stmt} {env final : Environment}
    {units : ℕ} :
    strategy.Bill (.seq first second) env units (.ok final) ↔
      ∃ middle before after, strategy.Bill first env before (.ok middle) ∧
        strategy.Bill second middle after (.ok final) ∧ units = before + after + 1 := by
  cases strategy with
  | smallStep =>
    constructor
    · rintro ⟨steps, ended, rfl⟩
      obtain ⟨middle, before, after, rfl, passed, onward⟩ := Stmt.takes_iff_ends.mpr ended
      exact ⟨middle, before, after, ⟨before, passed.ends, rfl⟩, ⟨after, onward.ends, rfl⟩,
        Nat.add_right_comm before 1 after⟩
    · rintro ⟨middle, before, after, ⟨_, passed, rfl⟩, ⟨_, onward, rfl⟩, rfl⟩
      exact ⟨before + 1 + after, Stmt.ends_seq passed onward, Nat.add_right_comm before after 1⟩
  | bigStep => exact Stmt.yields_seq_ok_iff
  | denotational => exact Stmt.yields_seq_ok_iff

/-- What a run costs that comes to the final environment: so many steps of the machine, and so many
units of gas under the other two strategies. -/
structure Cost (s : Stmt) (env final : Environment) (steps units : ℕ) : Prop where
  /-- The law gives these steps and no others. -/
  law (others : ℕ) : s.Takes env others final ↔ others = steps
  /-- They are what a machine has counted when its run is over, whatever gas and sink it has. -/
  counted {gas : Gas} {sink : Sink} {fuel : ℕ} {last : Environment} {machine : Machine}
    {trace left : Trace}
    (ran : Machine.run fuel { statement := s, environment := env, gas, sink } trace =
      some (.ok last, machine, left)) : last = final ∧ machine.steps = .ofNat steps
  reduction : smallStep.Threshold s env steps
  evaluation : bigStep.Threshold s env units
  meaning : denotational.Threshold s env units
  one_le : 1 ≤ units
  le_steps : units ≤ 2 * steps + 1

/-- A machine that comes to the end of its run has counted the steps of the reduction. -/
private theorem steps_of_run {s : Stmt} {env final last : Environment} {steps fuel : ℕ} {gas : Gas}
    {sink : Sink} {machine : Machine} {trace left : Trace}
    (ended : Stmt.rewriting.Ends (s, env) steps (.ok final))
    (ran : Machine.run fuel { statement := s, environment := env, gas, sink } trace =
      some (.ok last, machine, left)) : last = final ∧ machine.steps = .ofNat steps := by
  obtain ⟨reductions, reduces, stopped⟩ := Machine.run_of_unexhausted ran rfl
  obtain ⟨rfl, same⟩ := ended.unique ⟨_, reduces.state, stopped⟩
  have counted : machine.steps = 0 + .ofNat steps := reduces.steps
  exact ⟨(Except.ok.inj same).symm, by rw [counted, UInt64.zero_add]⟩

/-- What a run costs is what the law and the rules say. -/
theorem cost_iff {s : Stmt} {env final : Environment} {steps units : ℕ} :
    Cost s env final steps units ↔ s.Takes env steps final ∧ s.Yields env units (.ok final) := by
  constructor
  · intro cost
    have takes := (cost.law steps).mpr rfl
    obtain ⟨others, run⟩ := (Stmt.yields_iff_ends s env (.ok final)).mpr ⟨steps, takes.ends⟩
    obtain ⟨ticks, same, bill⟩ := cost.evaluation.bill (answers_iff_yields.mpr ⟨others, run⟩)
    obtain rfl : units = ticks := by exact_mod_cast same
    exact ⟨takes, bill⟩
  · rintro ⟨takes, run⟩
    have ended := takes.ends
    have reduction : smallStep.Bill s env steps (.ok final) := ⟨steps, ended, rfl⟩
    have evaluation : bigStep.Bill s env units (.ok final) := run
    have meaning : denotational.Bill s env units (.ok final) := run
    obtain ⟨others, alsoTakes, bound⟩ := run.takes
    obtain ⟨rfl, _⟩ := alsoTakes.ends.unique ended
    refine ⟨fun more => ⟨fun also => (also.ends.unique ended).1, ?_⟩, steps_of_run ended,
      reduction.threshold, evaluation.threshold, meaning.threshold, run.one_le, bound⟩
    rintro rfl
    exact takes

theorem Answers.cost {strategy : Strategy} {s : Stmt} {env final : Environment}
    (answer : strategy.Answers s env (.ok final)) :
    ∃ steps units, Cost s env final steps units := by
  obtain ⟨units, run⟩ := answers_iff_yields.mp answer
  obtain ⟨steps, takes, _⟩ := run.takes
  exact ⟨steps, units, cost_iff.mpr ⟨takes, run⟩⟩

namespace Cost

variable {s other first second : Stmt} {env middle final : Environment}
  {steps units before after paid due : ℕ}

/-- A sequence costs what its parts cost, and one step and one unit for the joint between them. -/
theorem seq (passed : Cost first env middle before paid) (ended : Cost second middle final after due) :
    Cost (.seq first second) env final (before + after + 1) (paid + due + 1) := by
  obtain ⟨takesBefore, runBefore⟩ := cost_iff.mp passed
  obtain ⟨takesAfter, runAfter⟩ := cost_iff.mp ended
  refine cost_iff.mpr ⟨⟨middle, before, after, ?_, takesBefore, takesAfter⟩, ?_⟩
  · exact Nat.add_right_comm before after 1
  · exact Stmt.yields_seq_ok_iff.mpr ⟨middle, paid, due, runBefore, runAfter, rfl⟩

/-- Runs that cost the same return the same with every gas, and leave the same of it. -/
theorem returns_iff (cost : Cost s env final steps units) (same : Cost other env final steps units)
    {strategy : Strategy} {gas : Gas} {result : Result} {left : Gas} :
    strategy.Returns s env gas result left ↔ strategy.Returns other env gas result left := by
  obtain ⟨takes, run⟩ := cost_iff.mp cost
  obtain ⟨takesToo, runToo⟩ := cost_iff.mp same
  obtain ⟨ticks, bill, billToo⟩ : ∃ ticks, strategy.Bill s env ticks (.ok final) ∧
      strategy.Bill other env ticks (.ok final) := by
    cases strategy with
    | smallStep => exact ⟨steps, ⟨steps, takes.ends, rfl⟩, steps, takesToo.ends, rfl⟩
    | bigStep => exact ⟨units, run, runToo⟩
    | denotational => exact ⟨units, run, runToo⟩
  rw [bill.returns_iff, billToo.returns_iff]

end Cost

/-- A limit that leaves room for the ticks of a run with an answer leaves it its answer. -/
private theorem returns_of_threshold {strategy : Strategy} {s : Stmt} {env : Environment}
    {result : Result} {ticks : ℕ} {limit : UInt64} (threshold : strategy.Threshold s env ticks)
    (answer : strategy.Answers s env result) (within : ticks ≤ limit.toNat) :
    ∃ left, strategy.Returns s env (.limited limit) result left := by
  have fresh : (Gas.limited limit).used.toNat = 0 := rfl
  have cover : ((Gas.limited limit).used.toNat : ℕ∞) + ticks ≤ limit.toNat := by
    rw [fresh]
    exact_mod_cast (by omega : 0 + ticks ≤ limit.toNat)
  obtain ⟨own, left, ownAnswer, returned, _⟩ := threshold.covered rfl (.inr cover)
  obtain rfl := ownAnswer.unique answer
  exact ⟨left, returned⟩

/-- A fresh limit under which the machine comes to its answer is no less than the steps that it
takes. -/
private theorem steps_le_of_returns {s : Stmt} {env final : Environment} {steps : ℕ}
    {limit : UInt64} {left : Gas} (threshold : smallStep.Threshold s env steps)
    (room : limit.toNat + 1 < 2 ^ 64)
    (returned : smallStep.Returns s env (.limited limit) (.ok final) left) :
    steps ≤ limit.toNat := by
  have fresh : (Gas.limited limit).used.toNat = 0 := rfl
  by_contra beyond
  have excess : ¬ ((steps : ℕ∞) = 0 ∨
      ((Gas.limited limit).used.toNat : ℕ∞) + steps ≤ limit.toNat) := by
    rw [fresh]
    exact_mod_cast (by omega : ¬ (steps = 0 ∨ 0 + steps ≤ limit.toNat))
  obtain ⟨_, exhausted, _⟩ := threshold.exceeded rfl (by omega) excess
  cases (returned.unique exhausted).1

/-- A run that comes to an environment takes the steps of the law, and under the other two
strategies it uses at least one unit of gas and at most one more than twice its steps. So what the
machine comes to under a limit, every strategy comes to under any limit of at least one more than
its double. -/
theorem cost_correspondence (s : Stmt) (env : Environment) :
    (∀ steps final,
      s.Takes env steps final ↔ Stmt.rewriting.Ends (s, env) steps (.ok final)) ∧
    (∀ (strategy : Strategy) final, strategy.Answers s env (.ok final) →
      ∃ steps units, Cost s env final steps units) ∧
    ∀ limit budget : UInt64, 2 * limit.toNat + 1 ≤ budget.toNat → ∀ final left,
      smallStep.Returns s env (.limited limit) (.ok final) left →
      ∀ strategy : Strategy, ∃ left, strategy.Returns s env (.limited budget) (.ok final) left := by
  refine ⟨fun _ _ => Stmt.takes_iff_ends, fun _ _ answer => answer.cost, ?_⟩
  intro limit budget enough final left returned strategy
  have answer : smallStep.Answers s env (.ok final) := by
    obtain answer | ⟨_, _, exhausted⟩ := returned.answers_or_exhausted
    · exact answer
    · cases exhausted
  obtain ⟨steps, units, cost⟩ := answer.cost
  have bound : budget.toNat < 2 ^ 64 := budget.toNat_lt
  have within := steps_le_of_returns cost.reduction (by omega) returned
  have below := cost.le_steps
  have anyAnswer : strategy.Answers s env (.ok final) :=
    answers_iff_yields.mpr (answers_iff_yields.mp answer)
  cases strategy with
  | smallStep => exact returns_of_threshold cost.reduction anyAnswer (by omega)
  | bigStep => exact returns_of_threshold cost.evaluation anyAnswer (by omega)
  | denotational => exact returns_of_threshold cost.meaning anyAnswer (by omega)

/-- A block of three `skip` takes two steps and five units, so that a limit of two is enough for the
machine and a limit of five for the others, but not one of four. -/
theorem cost_correspondence_skips :
    Cost (.block [.skip, .skip, .skip]) .empty .empty 2 5 ∧
      (∃ left, bigStep.Returns (.block [.skip, .skip, .skip]) .empty (.limited 5) (.ok .empty)
        left) ∧
      ∃ left, bigStep.Returns (.block [.skip, .skip, .skip]) .empty (.limited 4)
        (.error (.stepLimitExceeded 4)) left := by
  obtain ⟨law, costs, doubled⟩ := cost_correspondence (.block [.skip, .skip, .skip]) .empty
  have takes : (Stmt.block [.skip, .skip, .skip]).Takes .empty 2 .empty :=
    ⟨_, 0, 1, rfl, ⟨rfl, rfl⟩, _, 0, 0, rfl, ⟨rfl, rfl⟩, rfl, rfl⟩
  have bill : bigStep.Bill (.block [.skip, .skip, .skip]) .empty 5 (.ok .empty) :=
    .inr ⟨_, 1, 3, ⟨rfl, rfl⟩, .inr ⟨_, 1, 1, ⟨rfl, rfl⟩, ⟨rfl, rfl⟩, rfl⟩, rfl⟩
  have reduction : smallStep.Bill (.block [.skip, .skip, .skip]) .empty 2 (.ok .empty) :=
    ⟨2, (law _ _).mp takes, rfl⟩
  obtain ⟨steps, units, cost⟩ := costs bigStep _ (answers_iff_bill.mpr ⟨5, bill⟩)
  obtain rfl := (cost.law 2).mp takes
  obtain rfl : units = 5 := by exact_mod_cast cost.evaluation.unique bill.threshold
  have returned : smallStep.Returns (.block [.skip, .skip, .skip]) .empty (.limited 2)
      (.ok .empty) { used := 2, limit := some 2 } := reduction.returns_iff.mpr rfl
  refine ⟨cost, doubled 2 5 (by decide) _ _ returned bigStep, ?_⟩
  exact ⟨{ used := 5, limit := some 4 }, bill.returns_iff.mpr rfl⟩

end Strategy

end Concord
