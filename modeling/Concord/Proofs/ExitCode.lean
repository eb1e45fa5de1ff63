import Concord.CommandLine.Response
import Concord.Proofs.Agreement

/-! # The exit code

No built-in sample ever fails. Each of them that has an end comes to the result that it asks for,
under every strategy, and the one that has none asks for none and is given a budget; and a budget
cannot make a report fail. The program therefore always comes to an end, and reports success unless
it was asked for a sample that it does not have. Its fuel outlasts every budget below the greatest
one, and from there on more of it changes nothing.
-/

namespace Concord

namespace Report

variable {fuel more : Nat} {config : Config} {sample : Sample}

/-- Only the machine has a trace to show. -/
private theorem runOf?_of_untraced {strategy : Strategy} (untraced : strategy ≠ .smallStep) :
    runOf? fuel config sample strategy =
      (strategy.run? fuel sample.statement sample.environment
        (.ofLimit (config.budgetFor sample.diverges))).map
          fun ended => { strategy, result := ended.1 } := by
  cases strategy with
  | smallStep => exact absurd rfl untraced
  | bigStep =>
    simp only [runOf?, Strategy.execute, Strategy.run?]
    cases (sample.statement.eval fuel sample.environment).run _ <;> rfl
  | denotational =>
    simp only [runOf?, Strategy.execute, Strategy.run?]
    cases (sample.statement.meaning.apply fuel sample.environment).run _ <;> rfl

/-- More fuel changes nothing about a run that a report shows, its trace included. -/
theorem runOf?_of_more_fuel (order : fuel ≤ more) (strategy : Strategy) (run : Run)
    (ran : runOf? fuel config sample strategy = some run) :
    runOf? more config sample strategy = some run := by
  by_cases traced : strategy = .smallStep
  · subst traced
    obtain ⟨done, executed, shown⟩ := Option.map_eq_some_iff.mp ran
    obtain ⟨ended, finished, made⟩ := Option.bind_eq_some_iff.mp executed
    have again := Machine.finish_of_more_fuel order finished
    exact Option.map_eq_some_iff.mpr ⟨done, Option.bind_eq_some_iff.mpr ⟨ended, again, made⟩, shown⟩
  · rw [runOf?_of_untraced traced] at ran ⊢
    obtain ⟨ended, finished, shown⟩ := Option.map_eq_some_iff.mp ran
    exact Option.map_eq_some_iff.mpr ⟨ended, Strategy.run?_of_more_fuel order finished, shown⟩

theorem ofSample?_of_more_fuel (order : fuel ≤ more) (sample : Sample) (report : Report)
    (made : ofSample? fuel config sample = some report) :
    ofSample? more config sample = some report := by
  obtain ⟨runs, executed, rfl⟩ := ofSample?_eq_some_iff.mp made
  exact ofSample?_eq_some_iff.mpr
    ⟨runs, map_some_of_below (runOf?_of_more_fuel order) executed, rfl⟩

end Report

namespace Catalog

/-- Every sample that asks for a result comes to it, by reduction and by its meaning. -/
private theorem run?_samples :
    ∀ sample ∈ samples, ∀ strategy ∈ [Strategy.smallStep, .denotational],
      sample.diverges = true ∨
        (strategy.run? 64 sample.statement sample.environment .unlimited).map Prod.fst =
          sample.expected := by
  decide +kernel

/-- Every sample that asks for a result comes to it under every strategy. -/
theorem run?_of_mem_samples {sample : Sample} (member : sample ∈ samples) {result : Result}
    (asked : sample.expected = some result) (strategy : Strategy) :
    ∃ left, strategy.run? 64 sample.statement sample.environment .unlimited =
      some (result, left) := by
  have computed {strategy : Strategy} (listed : strategy ∈ [Strategy.smallStep, .denotational]) :
      ∃ left, strategy.run? 64 sample.statement sample.environment .unlimited =
        some (result, left) := by
    obtain diverges | same := run?_samples sample member strategy listed
    · simp [Sample.diverges, asked] at diverges
    · obtain ⟨⟨_, left⟩, ran, rfl⟩ := Option.map_eq_some_iff.mp (same.trans asked)
      exact ⟨left, ran⟩
  cases strategy with
  | smallStep => exact computed (by decide)
  | bigStep =>
    rw [Strategy.run?_bigStep]
    exact computed (by decide)
  | denotational => exact computed (by decide)

/-- A report on a built-in sample is never a failure. -/
theorem passed_of_ofSample? {sample : Sample} (member : sample ∈ samples) {fuel : Nat}
    {config : Config} {report : Report} (made : Report.ofSample? fuel config sample = some report) :
    report.passed = true := by
  have agree := Report.agree_of_ofSample? made
  have expected : report.expected = true := by
    refine (Report.expected_iff_of_ofSample? made).mpr ?_
    cases asked : sample.expected with
    | none => exact .inl rfl
    | some result =>
      obtain ⟨left, ran⟩ := run?_of_mem_samples member asked .bigStep
      exact .inr (.inr ⟨result, rfl, left, 64, ran⟩)
  simp [Report.passed, agree, expected]

end Catalog

namespace CommandLine

variable {config : Config} {fuel : Nat}

/-- A report on a built-in sample is made with ample fuel. -/
theorem exists_ofSample?_of_mem_samples {sample : Sample} (member : sample ∈ Catalog.samples)
    (bounded : ∀ limit, config.maxSteps = some limit → limit.toNat < 2 ^ 64 - 1)
    (ample : ampleFuel ≤ fuel) : ∃ report, Report.ofSample? fuel config sample = some report := by
  refine Report.exists_ofSample?_of_run? fun strategy _ => ?_
  unfold ampleFuel at ample
  cases budget : config.budgetFor sample.diverges with
  | some limit =>
    have bound : limit.toNat < 2 ^ 64 - 1 := by
      obtain asked | ⟨_, _, rfl⟩ := (config.budgetFor_eq_some_iff _ _).mp budget
      · exact bounded limit asked
      · decide
    have fresh : (Gas.ofLimit limit).used.toNat = 0 := rfl
    exact strategy.exists_run?_of_limit _ _ rfl (by omega) (by omega)
  | none =>
    obtain ⟨_, ends⟩ := (config.budgetFor_eq_none_iff _).mp budget
    have asks : sample.expected.isSome = true := by simpa [Sample.diverges] using ends
    obtain ⟨result, asked⟩ := Option.isSome_iff_exists.mp asks
    obtain ⟨left, ran⟩ := Catalog.run?_of_mem_samples member asked strategy
    exact ⟨_, Strategy.run?_of_more_fuel (by omega) ran⟩

/-- Ample fuel makes the reports on built-in samples, and they are no failures. -/
theorem exists_reports {samples : List Sample}
    (members : ∀ sample ∈ samples, sample ∈ Catalog.samples)
    (bounded : ∀ limit, config.maxSteps = some limit → limit.toNat < 2 ^ 64 - 1) :
    ∃ reports, reports.all Report.passed = true ∧
      ∀ fuel, ampleFuel ≤ fuel →
        samples.mapM (Report.ofSample? fuel config) = some reports := by
  obtain ⟨reports, made⟩ := exists_map_some fun sample member =>
    exists_ofSample?_of_mem_samples (members sample member) bounded (le_refl ampleFuel)
  refine ⟨reports, ?_, fun fuel ample => ?_⟩
  · refine List.all_eq_true.mpr fun report listed => ?_
    have shown : some report ∈ reports.map some := List.mem_map_of_mem listed
    rw [← made] at shown
    obtain ⟨sample, member, found⟩ := List.mem_map.mp shown
    exact Catalog.passed_of_ofSample? (members sample member) found
  · exact mapM_eq_some_iff.mpr (map_some_of_below (Report.ofSample?_of_more_fuel ample) made)

/-- Names are looked up one after the other, up to the first that nothing has. -/
private theorem mapM_get (names : List String) :
    (∃ samples, names.mapM Catalog.get = .ok samples ∧
      (∀ sample ∈ samples, sample ∈ Catalog.samples) ∧
      ∀ name ∈ names, Catalog.find? name ≠ none) ∨
    ∃ name ∈ names, Catalog.find? name = none ∧
      names.mapM Catalog.get = .error (.sample name) := by
  induction names with
  | nil => exact .inl ⟨[], rfl, by simp, by simp⟩
  | cons head tail ih =>
    rw [List.mapM_cons]
    cases found : Catalog.find? head with
    | none =>
      have unknown : Catalog.get head = .error (.sample head) := by rw [Catalog.get, found]
      exact .inr ⟨head, List.mem_cons_self, found, by rw [unknown]; rfl⟩
    | some sample =>
      have known : Catalog.get head = .ok sample := by rw [Catalog.get, found]
      have member : sample ∈ Catalog.samples := List.mem_of_find?_eq_some found
      rw [known]
      obtain ⟨samples, looked, members, all⟩ | ⟨name, listed, unknown, looked⟩ := ih
      · refine .inl ⟨sample :: samples, by rw [looked]; rfl, ?_, ?_⟩
        · exact List.forall_mem_cons.mpr ⟨member, members⟩
        · exact List.forall_mem_cons.mpr ⟨by simp [found], all⟩
      · exact .inr ⟨name, List.mem_cons_of_mem _ listed, unknown, by rw [looked]; rfl⟩

/-- What is selected is built in, unless a name is asked for that nothing has. -/
theorem selected_cases (config : Config) :
    (∃ samples, selected config = .ok samples ∧
      (∀ sample ∈ samples, sample ∈ Catalog.samples) ∧
      ∀ name ∈ config.scenarios, Catalog.find? name ≠ none) ∨
    ∃ name ∈ config.scenarios, Catalog.find? name = none ∧
      selected config = .error (.sample name) := by
  unfold selected
  split
  · next unasked =>
    rw [List.isEmpty_iff] at unasked
    exact .inl ⟨_, rfl, fun _ member => member, by simp [unasked]⟩
  · exact mapM_get config.scenarios

/-- With ample fuel there is a response. It is success, or it tells of an unknown name if nothing
was to be listed and there is one. -/
theorem exists_response
    (bounded : ∀ limit, config.maxSteps = some limit → limit.toNat < 2 ^ 64 - 1) :
    ∃ response, (∀ fuel, ampleFuel ≤ fuel → respond? fuel config = some response) ∧
      (response.exitCode = 2 ∧ config.list = false ∧
          (∃ name ∈ config.scenarios, Catalog.find? name = none) ∨
        response.exitCode = 0 ∧
          (config.list = true ∨ ∀ name ∈ config.scenarios, Catalog.find? name ≠ none)) := by
  cases listing : config.list with
  | true =>
    let listed : Response := { exitCode := 0, stdout := Sample.listingText Catalog.samples }
    refine ⟨listed, fun fuel _ => ?_, .inr ⟨rfl, .inl rfl⟩⟩
    simp only [respond?, listing, ↓reduceIte, listed]
  | false =>
    obtain ⟨samples, chosen, members, known⟩ | ⟨name, listed, unknown, chosen⟩ :=
      selected_cases config
    · obtain ⟨reports, passed, made⟩ := exists_reports members bounded
      refine ⟨ofReports config reports, fun fuel ample => ?_, .inr ⟨?_, .inr known⟩⟩
      · simp only [respond?, listing, chosen, made fuel ample]
        rfl
      · simp [ofReports, passed]
    · refine ⟨ofUnknownName (.sample name), fun fuel _ => ?_,
        .inl ⟨rfl, rfl, name, listed, unknown⟩⟩
      simp only [respond?, listing, chosen]
      rfl

/-- The program never reports a failed sample. For all words that are a configuration, with no
budget or any below the greatest one, it comes to an end and exits with 0 or 2, and it exits with 2
exactly when nothing was to be listed and a sample was asked for that it does not have. -/
theorem exit_code {words : List String} {variableText : Option String}
    (parsed : parse words variableText = .ok config)
    (bounded : ∀ limit, config.maxSteps = some limit → limit.toNat < 2 ^ 64 - 1) :
    ∃ response, (∀ fuel, ampleFuel ≤ fuel → answer? fuel words variableText = some response) ∧
      (response.exitCode = 0 ∨ response.exitCode = 2) ∧
      (response.exitCode = 2 ↔
        config.list = false ∧ ∃ name ∈ config.scenarios, Catalog.find? name = none) := by
  obtain ⟨response, responds, outcome⟩ := exists_response bounded
  have answered (fuel : Nat) (ample : ampleFuel ≤ fuel) :
      answer? fuel words variableText = some response := by
    simp only [answer?, parsed, responds fuel ample]
  obtain ⟨code, unlisted, name, asked, unknown⟩ | ⟨code, fine⟩ := outcome
  · exact ⟨response, answered, .inr code, iff_of_true code ⟨unlisted, name, asked, unknown⟩⟩
  · refine ⟨response, answered, .inl code, iff_of_false (by simp [code]) ?_⟩
    rintro ⟨unlisted, name, asked, unknown⟩
    obtain listed | known := fine
    · rw [unlisted] at listed
      cases listed
    · exact known name asked unknown

/-- With a budget of 7 from the environment, `forever -s big-step` exits with 0 and `forever nope`
with 2. -/
theorem exit_code_forever :
    (∃ response, answer? ampleFuel ["forever", "-s", "big-step"] (some "7") = some response ∧
      response.exitCode = 0) ∧
    ∃ response, answer? ampleFuel ["forever", "nope"] (some "7") = some response ∧
      response.exitCode = 2 := by
  have bounded (limit : UInt64) (same : some 7 = some limit) : limit.toNat < 2 ^ 64 - 1 := by
    cases same
    decide
  constructor
  · have parsed : parse ["forever", "-s", "big-step"] (some "7") =
        .ok { scenarios := ["forever"], strategies := [.bigStep], maxSteps := some 7 } := by
      decide
    obtain ⟨response, answered, codes, unknown_iff⟩ := exit_code parsed bounded
    refine ⟨response, answered _ le_rfl, codes.resolve_right fun code => ?_⟩
    exact absurd (unknown_iff.mp code) (by decide)
  · have parsed : parse ["forever", "nope"] (some "7") =
        .ok { scenarios := ["forever", "nope"], maxSteps := some 7 } := by
      decide
    obtain ⟨response, answered, _, unknown_iff⟩ := exit_code parsed bounded
    exact ⟨response, answered _ le_rfl, unknown_iff.mpr (by decide)⟩

end CommandLine

end Concord
