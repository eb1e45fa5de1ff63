import Concord.Catalog
import Concord.Proofs.Threshold
import Concord.Proofs.Traversal
import Concord.Report.Text

/-! # Agreement of reported runs

A report runs one sample under several strategies with one budget. Each of its runs comes to the one
answer of the sample or exhausts the budget, so a report never tells of a disagreement, and tells of
an unexpected outcome only when the sample asks for one that is not its answer.
-/

namespace Concord

/-- Runs that come to an end do so with one amount of fuel. -/
theorem Strategy.exists_common_fuel {strategies : List Strategy} {s : Stmt} {env : Environment}
    {gas : Gas}
    (returns : ∀ strategy ∈ strategies, ∃ result left, strategy.Returns s env gas result left) :
    ∃ fuel, ∀ strategy ∈ strategies, ∃ ended, strategy.run? fuel s env gas = some ended := by
  induction strategies with
  | nil => exact ⟨0, by simp⟩
  | cons first rest ih =>
    obtain ⟨result, left, more, ran⟩ := returns first List.mem_cons_self
    obtain ⟨fuel, ranRest⟩ :=
      ih fun strategy member => returns strategy (List.mem_cons_of_mem _ member)
    refine ⟨max more fuel, fun strategy member => ?_⟩
    obtain rfl | listed := List.mem_cons.mp member
    · exact ⟨_, run?_of_more_fuel (Nat.le_max_left more fuel) ran⟩
    · obtain ⟨ended, ranToo⟩ := ranRest strategy listed
      exact ⟨ended, run?_of_more_fuel (Nat.le_max_right more fuel) ranToo⟩

namespace Report

/-- The run of a sample under one strategy, as a report makes it. -/
def runOf? (fuel : Nat) (config : Config) (sample : Sample) (strategy : Strategy) : Option Run :=
  (strategy.execute fuel sample.statement sample.environment
    (config.budgetFor sample.diverges)).map Execution.toRun

variable {fuel : Nat} {config : Config} {sample : Sample} {report : Report}

/-- A run keeps the strategy and the result that the strategy returns. -/
theorem runOf?_eq (fuel : Nat) (config : Config) (sample : Sample) (strategy : Strategy) :
    (runOf? fuel config sample strategy).map (fun run => (run.strategy, run.result)) =
      (strategy.run? fuel sample.statement sample.environment
        (.ofLimit (config.budgetFor sample.diverges))).map fun ended => (strategy, ended.1) := by
  rw [← Strategy.execute_eq, runOf?, Option.map_map]
  rfl

theorem runOf?_eq_some {strategy : Strategy} {run : Run}
    (executed : runOf? fuel config sample strategy = some run) :
    run.strategy = strategy ∧
      ∃ left, strategy.Returns sample.statement sample.environment
        (.ofLimit (config.budgetFor sample.diverges)) run.result left := by
  have same := runOf?_eq fuel config sample strategy
  rw [executed, Option.map_some, eq_comm, Option.map_eq_some_iff] at same
  obtain ⟨⟨result, left⟩, ran, shown⟩ := same
  cases shown
  exact ⟨rfl, left, fuel, ran⟩

/-- A report is made of one run for each of the strategies, in order. -/
theorem ofSample?_eq_some_iff :
    ofSample? fuel config sample = some report ↔
      ∃ runs, config.strategies.map (runOf? fuel config sample) = runs.map some ∧
        ofRuns sample (config.budgetFor sample.diverges) runs = report := by
  simp only [← mapM_eq_some_iff]
  simp only [ofSample?, bind, Option.bind_eq_some_iff, pure, Option.some.injEq]
  rfl

private theorem strategies_of_map_some {strategies : List Strategy} {runs : List Run}
    (executed : strategies.map (runOf? fuel config sample) = runs.map some) :
    runs.map Run.strategy = strategies := by
  induction strategies generalizing runs with
  | nil =>
    obtain rfl := List.map_eq_nil_iff.mp executed.symm
    rfl
  | cons strategy strategies ih =>
    cases runs with
    | nil => cases executed
    | cons run runs =>
      obtain ⟨first, rest⟩ := List.cons.inj executed
      rw [List.map_cons, (runOf?_eq_some first).1, ih rest]

/-- The runs of a report are those of the strategies that were asked for. -/
theorem strategies_of_ofSample? (made : ofSample? fuel config sample = some report) :
    report.runs.map Run.strategy = config.strategies := by
  obtain ⟨runs, executed, rfl⟩ := ofSample?_eq_some_iff.mp made
  exact strategies_of_map_some executed

/-- Each run of a report returns under the budget of the report. -/
theorem returns_of_mem_runs (made : ofSample? fuel config sample = some report) {run : Run}
    (member : run ∈ report.runs) :
    ∃ left, run.strategy.Returns sample.statement sample.environment
      (.ofLimit (config.budgetFor sample.diverges)) run.result left := by
  obtain ⟨runs, executed, rfl⟩ := ofSample?_eq_some_iff.mp made
  have listed : some run ∈ runs.map some := List.mem_map_of_mem member
  rw [← executed] at listed
  obtain ⟨strategy, _, ran⟩ := List.mem_map.mp listed
  obtain ⟨rfl, returned⟩ := runOf?_eq_some ran
  exact returned

/-- A run of a report that has not exhausted its budget has come to the one answer of the sample. -/
theorem answers_of_mem_settled (made : ofSample? fuel config sample = some report) {result : Result}
    (member : result ∈ settled (report.runs.map Run.result)) :
    Strategy.bigStep.Answers sample.statement sample.environment result := by
  obtain ⟨listed, settled⟩ := (mem_settled_iff _ _).mp member
  obtain ⟨run, ran, rfl⟩ := List.mem_map.mp listed
  obtain ⟨left, returned⟩ := returns_of_mem_runs made ran
  obtain answer | ⟨limit, _, exhausted⟩ := returned.answers_or_exhausted
  · exact Strategy.answers_iff_yields.mpr (Strategy.answers_iff_yields.mp answer)
  · rw [exhausted] at settled
    cases settled

/-- The verdict on agreement and the verdict on the outcome are taken from the runs. -/
theorem verdicts_of_ofSample? (made : ofSample? fuel config sample = some report) :
    report.agree = outcomesAgree (report.runs.map Run.result) ∧
      report.expected = match sample.expected with
        | none => true
        | some expected => allSettledAs expected (report.runs.map Run.result) := by
  obtain ⟨runs, _, rfl⟩ := ofSample?_eq_some_iff.mp made
  exact ⟨rfl, rfl⟩

theorem agree_of_ofSample? (made : ofSample? fuel config sample = some report) :
    report.agree = true := by
  rw [(verdicts_of_ofSample? made).1, outcomesAgree_eq_true_iff]
  intro result member other otherMember
  exact (answers_of_mem_settled made member).unique (answers_of_mem_settled made otherMember)

/-- Nothing settled is what a report has when all its runs have exhausted their budget. -/
theorem settled_eq_nil_iff {runs : List Run} :
    settled (runs.map Run.result) = [] ↔ ∀ run ∈ runs, isExhausted run.result = true := by
  simp [settled, List.filter_eq_nil_iff]

/-- An outcome is unexpected when the sample asks for another one and a run has come to it. -/
theorem expected_iff_of_ofSample? (made : ofSample? fuel config sample = some report) :
    report.expected = true ↔
      sample.expected = none ∨ (∀ run ∈ report.runs, isExhausted run.result = true) ∨
        ∃ result, sample.expected = some result ∧
          Strategy.bigStep.Answers sample.statement sample.environment result := by
  rw [(verdicts_of_ofSample? made).2, ← settled_eq_nil_iff]
  cases asked : sample.expected with
  | none => simp
  | some expected =>
    simp only [allSettledAs_eq_true_iff, reduceCtorEq, false_or, Option.some.injEq,
      exists_eq_left']
    constructor
    · intro same
      rcases found : settled (report.runs.map Run.result) with _ | ⟨first, rest⟩
      · exact .inl rfl
      · have member : first ∈ settled (report.runs.map Run.result) := by simp [found]
        have answer := answers_of_mem_settled made member
        rw [same first member] at answer
        exact .inr answer
    · rintro (nothing | answer) result member
      · rw [nothing] at member
        cases member
      · exact (answers_of_mem_settled made member).unique answer

/-- With a given fuel, a report is made when each of the strategies comes to an end under the
budget. -/
theorem exists_ofSample?_of_run? (ran : ∀ strategy ∈ config.strategies, ∃ ended,
      strategy.run? fuel sample.statement sample.environment
        (.ofLimit (config.budgetFor sample.diverges)) = some ended) :
    ∃ report, ofSample? fuel config sample = some report := by
  have executed : ∀ strategy ∈ config.strategies,
      ∃ run, runOf? fuel config sample strategy = some run := by
    intro strategy member
    obtain ⟨ended, ranTo⟩ := ran strategy member
    have same := runOf?_eq fuel config sample strategy
    rw [ranTo, Option.map_some, Option.map_eq_some_iff] at same
    obtain ⟨run, found, _⟩ := same
    exact ⟨run, found⟩
  obtain ⟨runs, listed⟩ := exists_map_some executed
  exact ⟨_, ofSample?_eq_some_iff.mpr ⟨runs, listed, rfl⟩⟩

theorem exists_ofSample? (returns : ∀ strategy ∈ config.strategies, ∃ result left,
      strategy.Returns sample.statement sample.environment
        (.ofLimit (config.budgetFor sample.diverges)) result left) :
    ∃ fuel report, ofSample? fuel config sample = some report := by
  obtain ⟨fuel, ran⟩ := Strategy.exists_common_fuel returns
  exact ⟨fuel, exists_ofSample?_of_run? ran⟩

/-- No report raises a false alarm. Its runs are those that were asked for, each with what its
strategy returns under the budget, they agree, and its verdict never says that they do not. It finds the outcome expected when the sample asks for none,
when all runs have exhausted their budget, or when the sample asks for the answer that it has. And a
report is made under every budget that leaves the counter room for one more unit, and without a
budget when each of the strategies comes to an answer. -/
theorem no_false_alarm (config : Config) (sample : Sample) :
    (∀ fuel report, ofSample? fuel config sample = some report →
      report.runs.map Run.strategy = config.strategies ∧
      (∀ run ∈ report.runs, ∃ left, run.strategy.Returns sample.statement sample.environment
        (.ofLimit (config.budgetFor sample.diverges)) run.result left) ∧
      report.agree = true ∧
      report.verdict ≠ "FAILED: strategies disagree" ∧
      (report.expected = true ↔
        sample.expected = none ∨ (∀ run ∈ report.runs, isExhausted run.result = true) ∨
          ∃ result, sample.expected = some result ∧
            Strategy.bigStep.Answers sample.statement sample.environment result)) ∧
    ((∀ limit, config.maxSteps = some limit → limit.toNat < 2 ^ 64 - 1) →
      (config.maxSteps = none → sample.diverges = false → ∀ strategy ∈ config.strategies,
        ∃ result, strategy.Answers sample.statement sample.environment result) →
      ∃ fuel report, ofSample? fuel config sample = some report) := by
  constructor
  · intro fuel report made
    have agree := agree_of_ofSample? made
    refine ⟨strategies_of_ofSample? made, fun _ => returns_of_mem_runs made, agree, ?_,
      expected_iff_of_ofSample? made⟩
    simp only [verdict, agree, ↓reduceIte]
    split <;> decide
  · intro bounded answered
    refine exists_ofSample? fun strategy member => ?_
    cases budget : config.budgetFor sample.diverges with
    | some limit =>
      have bound : limit.toNat < 2 ^ 64 - 1 := by
        obtain asked | ⟨_, _, rfl⟩ := (config.budgetFor_eq_some_iff _ _).mp budget
        · exact bounded limit asked
        · decide
      have room : max (Gas.ofLimit limit).used.toNat limit.toNat + 1 < 2 ^ 64 := by
        have fresh : (Gas.ofLimit limit).used.toNat = 0 := rfl
        omega
      exact strategy.exists_returns_of_limit _ _ rfl room
    | none =>
      obtain ⟨unasked, ends⟩ := (config.budgetFor_eq_none_iff _).mp budget
      obtain ⟨result, left, returned⟩ := answered unasked ends strategy member
      exact ⟨result, left, returned⟩

/-- A program that never ends is run with a budget of its own. -/
theorem no_false_alarm_forever :
    ∃ fuel report, ofSample? fuel {} Catalog.forever = some report ∧
      report.agree = true ∧ report.expected = true := by
  obtain ⟨verdicts, made⟩ := no_false_alarm {} Catalog.forever
  obtain ⟨fuel, report, found⟩ := made (fun _ asked => nomatch asked) (fun _ ends => nomatch ends)
  obtain ⟨_, _, agree, _, expected⟩ := verdicts fuel report found
  exact ⟨fuel, report, found, agree, expected.mpr (.inl rfl)⟩

end Report

end Concord
