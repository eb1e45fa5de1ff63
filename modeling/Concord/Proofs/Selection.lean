import Concord.Proofs.ExitCode

/-! # Several samples at once

All names of a command line are looked up before the first sample is run, so one name that nothing
has keeps every report from being printed, wherever it stands. If there is none, nothing passes from
one sample to the next: the response to the names is made of the responses to each of them alone.
-/

namespace Concord

namespace Config

/-- The names that are asked for, in order; those of all samples if there is none. -/
def names (config : Config) : List String :=
  if config.scenarios.isEmpty then Catalog.samples.map Sample.name else config.scenarios

/-- The same options with one name alone. -/
def alone (config : Config) (name : String) : Config := { config with scenarios := [name] }

@[simp] theorem names_alone (config : Config) (name : String) :
    (config.alone name).names = [name] := rfl

@[simp] theorem list_alone (config : Config) (name : String) :
    (config.alone name).list = config.list := rfl

end Config

namespace Catalog

/-- No two samples share a name. -/
theorem mapM_get_names : (samples.map Sample.name).mapM get = .ok samples := rfl

theorem get_eq_ok_iff {name : String} {sample : Sample} :
    get name = .ok sample ↔ find? name = some sample := by
  unfold get
  split <;> simp_all

/-- The first name that nothing has is the error. -/
theorem mapM_get_of_unknown {before rest : List String} {name : String}
    (known : ∀ earlier ∈ before, find? earlier ≠ none) (unknown : find? name = none) :
    (before ++ name :: rest).mapM get = .error (.sample name) := by
  induction before with
  | nil =>
    have missing : get name = .error (.sample name) := by rw [get, unknown]
    rw [List.nil_append, List.mapM_cons, missing]
    rfl
  | cons head tail ih =>
    obtain ⟨first, others⟩ := List.forall_mem_cons.mp known
    obtain ⟨sample, found⟩ := Option.ne_none_iff_exists'.mp first
    rw [List.cons_append, List.mapM_cons, get_eq_ok_iff.mpr found, ih others]
    rfl

/-- Names that are all known have their samples. -/
theorem mapM_get_of_known {names : List String} (known : ∀ name ∈ names, find? name ≠ none) :
    ∃ samples, names.mapM get = .ok samples := by
  induction names with
  | nil => exact ⟨[], rfl⟩
  | cons head tail ih =>
    obtain ⟨first, others⟩ := List.forall_mem_cons.mp known
    obtain ⟨sample, found⟩ := Option.ne_none_iff_exists'.mp first
    obtain ⟨rest, looked⟩ := ih others
    refine ⟨sample :: rest, ?_⟩
    rw [List.mapM_cons, get_eq_ok_iff.mpr found, looked]
    rfl

end Catalog

namespace CommandLine

/-- Responses one behind the other: a success if each of them is one. -/
def Response.concat (responses : List Response) : Response where
  exitCode := if responses.all fun response => response.exitCode = 0 then 0 else 1
  stdout := String.join (responses.map Response.stdout)
  stderr := String.join (responses.map Response.stderr)

theorem Response.exitCode_concat_eq_zero_iff (responses : List Response) :
    (concat responses).exitCode = 0 ↔ ∀ response ∈ responses, response.exitCode = 0 := by
  simp [concat]

variable {config : Config}

/-- The response to reports is made of the responses to each of them alone. -/
theorem ofReports_eq_concat (config : Config) (reports : List Report) :
    ofReports config reports = .concat (reports.map fun report => ofReports config [report]) := by
  have singleCode (report : Report) :
      decide ((ofReports config [report]).exitCode = 0) = report.passed := by
    cases passed : report.passed <;> simp [ofReports, passed]
  have singleText (report : Report) :
      (ofReports config [report]).stdout = printed config report := by
    simp [ofReports]
  have silent : String.join (reports.map fun report => (ofReports config [report]).stderr) = "" := by
    induction reports with
    | nil => rfl
    | cons _ rest ih =>
      rw [List.map_cons, String.join_cons, ih]
      rfl
  simp only [Response.concat, List.all_map, Function.comp_def, singleCode, List.map_map, singleText,
    silent]
  rfl

theorem selected_eq (config : Config) : selected config = config.names.mapM Catalog.get := by
  unfold selected Config.names
  split
  · exact Catalog.mapM_get_names.symm
  · rfl

/-- Names that are all known are answered by the reports on their samples. -/
theorem respond?_of_known (fuel : ℕ) (unlisted : config.list = false) {samples : List Sample}
    (looked : config.names.mapM Catalog.get = .ok samples) :
    respond? fuel config =
      (samples.mapM (Report.ofSample? fuel config)).map (ofReports config) := by
  simp only [respond?, unlisted, selected_eq, looked]
  cases samples.mapM (Report.ofSample? fuel config) <;> rfl

/-- The other names of a configuration have no part in the report on a sample. -/
theorem respond?_alone (fuel : ℕ) (unlisted : config.list = false) {name : String} {sample : Sample}
    (found : Catalog.find? name = some sample) :
    respond? fuel (config.alone name) =
      (Report.ofSample? fuel config sample).map fun report => ofReports config [report] := by
  have looked : (config.alone name).names.mapM Catalog.get = .ok [sample] := by
    rw [Config.names_alone, List.mapM_cons, Catalog.get_eq_ok_iff.mpr found]
    rfl
  have sameReport : Report.ofSample? fuel (config.alone name) sample =
      Report.ofSample? fuel config sample := rfl
  have stillUnlisted : (config.alone name).list = false := (config.list_alone name).trans unlisted
  rw [respond?_of_known fuel stillUnlisted looked, List.mapM_cons, sameReport]
  cases Report.ofSample? fuel config sample <;> rfl

/-- Known names, each asked for alone, are answered by one report each. -/
theorem mapM_respond?_alone (fuel : ℕ) (unlisted : config.list = false) {names : List String}
    {samples : List Sample} (looked : names.mapM Catalog.get = .ok samples) :
    (names.mapM fun name => respond? fuel (config.alone name)) =
      (samples.mapM (Report.ofSample? fuel config)).map
        (List.map fun report => ofReports config [report]) := by
  induction names generalizing samples with
  | nil =>
    cases looked
    rfl
  | cons name rest ih =>
    rw [List.mapM_cons] at looked
    obtain ⟨sample, found, looked⟩ := bind_eq_ok_iff.mp looked
    obtain ⟨others, lookedRest, same⟩ := bind_eq_ok_iff.mp looked
    cases same
    rw [List.mapM_cons, List.mapM_cons, ih lookedRest,
      respond?_alone fuel unlisted (Catalog.get_eq_ok_iff.mp found)]
    cases Report.ofSample? fuel config sample with
    | none => rfl
    | some report => cases others.mapM (Report.ofSample? fuel config) <;> rfl

/-- Known names are answered by the responses to each of them alone, one behind the other. -/
theorem respond?_eq_concat (fuel : ℕ) (unlisted : config.list = false)
    (known : ∀ name ∈ config.names, Catalog.find? name ≠ none) :
    respond? fuel config =
      (config.names.mapM fun name => respond? fuel (config.alone name)).map Response.concat := by
  obtain ⟨samples, looked⟩ := Catalog.mapM_get_of_known known
  have assembled : ofReports config =
      Response.concat ∘ List.map fun report => ofReports config [report] :=
    funext (ofReports_eq_concat config)
  rw [respond?_of_known fuel unlisted looked, mapM_respond?_alone fuel unlisted looked,
    Option.map_map]
  exact congrArg (Option.map · _) assembled

/-- The names that are asked for are known when those of the command line are. -/
theorem known_of_scenarios (known : ∀ name ∈ config.scenarios, Catalog.find? name ≠ none) :
    ∀ name ∈ config.names, Catalog.find? name ≠ none := by
  unfold Config.names
  split
  · decide
  · exact known

/-- How the program answers a command line that asks for reports; `answer` is its response with a
given fuel. -/
structure AnswersByName (config : Config) (answer : ℕ → Option Response) : Prop where
  /-- If there is a name that no sample has, at whatever place, nothing is printed, and the message
  is about the first such name. -/
  refused (asked : ∃ name ∈ config.scenarios, Catalog.find? name = none) :
    ∃ before name rest, config.scenarios = before ++ name :: rest ∧
      (∀ earlier ∈ before, Catalog.find? earlier ≠ none) ∧ Catalog.find? name = none ∧
      ∀ fuel, answer fuel = some {
        exitCode := 2
        stdout := ""
        stderr := "simp: unknown sample program: " ++ name ++ " (try --list)\n" }
  /-- Otherwise what is printed is what is printed for each name alone, in the order of the names,
  and it is a success if each of these is one. -/
  printed (known : ∀ name ∈ config.scenarios, Catalog.find? name ≠ none) {fuel : ℕ}
    {response : Response} (ended : answer fuel = some response) :
    ∃ singles, (config.names.mapM fun name => respond? fuel (config.alone name)) = some singles ∧
      response.stdout = String.join (singles.map Response.stdout) ∧ response.stderr = "" ∧
      (response.exitCode = 0 ↔ ∀ single ∈ singles, single.exitCode = 0)
  /-- There is a response when there is one for each name alone. -/
  ended_iff (known : ∀ name ∈ config.scenarios, Catalog.find? name ≠ none) (fuel : ℕ) :
    (∃ response, answer fuel = some response) ↔
      ∀ name ∈ config.names, ∃ single, respond? fuel (config.alone name) = some single
  /-- And there is one with ample fuel, without a budget and with any but the greatest one. -/
  ends (bounded : ∀ limit, config.maxSteps = some limit → limit.toNat < 2 ^ 64 - 1) :
    ∃ response, ∀ fuel, ampleFuel ≤ fuel → answer fuel = some response

/-- Reports have nothing to say beside what they print. -/
theorem stderr_of_known {fuel : ℕ} (unlisted : config.list = false)
    (known : ∀ name ∈ config.names, Catalog.find? name ≠ none) {response : Response}
    (ended : respond? fuel config = some response) : response.stderr = "" := by
  obtain ⟨samples, looked⟩ := Catalog.mapM_get_of_known known
  rw [respond?_of_known fuel unlisted looked] at ended
  obtain ⟨reports, _, rfl⟩ := Option.map_eq_some_iff.mp ended
  rfl

theorem stderr_ofUnknownName (name : String) :
    (ofUnknownName (.sample name)).stderr =
      "simp: unknown sample program: " ++ name ++ " (try --list)\n" := by
  have opening : "simp: " ++ "unknown sample program: " = "simp: unknown sample program: " := by
    decide
  have ending : " (try --list)" ++ "\n" = " (try --list)\n" := by decide
  have regrouped (a b c d : String) : a ++ (b ++ name ++ c) ++ d = a ++ b ++ name ++ (c ++ d) := by
    simp only [String.append_assoc]
  exact (regrouped _ _ _ _).trans
    (congrArg₂ (fun first last => first ++ name ++ last) opening ending)

/-- The response to a name that no sample has, when the names before it are known. -/
theorem respond?_of_unknown (fuel : ℕ) (unlisted : config.list = false) {before rest : List String}
    {name : String} (asked : config.scenarios = before ++ name :: rest)
    (known : ∀ earlier ∈ before, Catalog.find? earlier ≠ none)
    (unknown : Catalog.find? name = none) :
    respond? fuel config = some {
      exitCode := 2
      stdout := ""
      stderr := "simp: unknown sample program: " ++ name ++ " (try --list)\n" } := by
  have some_name : config.names = config.scenarios := by simp [Config.names, asked]
  have failed : selected config = .error (.sample name) := by
    rw [selected_eq, some_name, asked]
    exact Catalog.mapM_get_of_unknown known unknown
  have answered : respond? fuel config = some (ofUnknownName (.sample name)) := by
    simp only [respond?, unlisted, failed]
    rfl
  rw [answered, ← stderr_ofUnknownName]
  rfl

theorem answersByName (unlisted : config.list = false) :
    AnswersByName config fun fuel => respond? fuel config where
  refused := by
    intro asked
    have found : (config.scenarios.find? fun name => Catalog.find? name = none).isSome := by
      simpa using asked
    obtain ⟨name, first⟩ := Option.isSome_iff_exists.mp found
    obtain ⟨unknown, before, rest, split, known⟩ := List.find?_eq_some_iff_append.mp first
    have unknown : Catalog.find? name = none := by simpa using unknown
    have known : ∀ earlier ∈ before, Catalog.find? earlier ≠ none := by simpa using known
    exact ⟨before, name, rest, split, known, unknown,
      fun fuel => respond?_of_unknown fuel unlisted split known unknown⟩
  printed := by
    intro known fuel response ended
    have known := known_of_scenarios known
    have silent := stderr_of_known unlisted known ended
    rw [respond?_eq_concat fuel unlisted known] at ended
    obtain ⟨singles, each, rfl⟩ := Option.map_eq_some_iff.mp ended
    exact ⟨singles, each, rfl, silent, Response.exitCode_concat_eq_zero_iff singles⟩
  ended_iff := by
    intro known fuel
    rw [respond?_eq_concat fuel unlisted (known_of_scenarios known)]
    constructor
    · rintro ⟨response, ended⟩
      obtain ⟨singles, each, _⟩ := Option.map_eq_some_iff.mp ended
      exact exists_mapM_eq_some_iff.mp ⟨singles, each⟩
    · intro each
      obtain ⟨singles, each⟩ := exists_mapM_eq_some_iff.mpr each
      exact ⟨.concat singles, by rw [each]; rfl⟩
  ends := by
    intro bounded
    obtain ⟨response, responds, _⟩ := exists_response bounded
    exact ⟨response, responds⟩

/-- A command line is answered for all of its names or for none of them. With a name among them that
no sample has, the program prints nothing and tells the first such name; otherwise it prints what it
prints for each of them alone, in their order, and succeeds when it does for each of them. When the
samples are to be listed, the names have no part in the response, whether they are known or not. -/
theorem all_or_nothing {words : List String} {variableText : Option String}
    (parsed : parse words variableText = .ok config) :
    (config.list = false → AnswersByName config fun fuel => answer? fuel words variableText) ∧
    (config.list = true → ∀ fuel,
      answer? fuel words variableText =
        some { exitCode := 0, stdout := Sample.listingText Catalog.samples } ∧
      ∀ scenarios, respond? fuel { config with scenarios } = answer? fuel words variableText) := by
  have answered (fuel : ℕ) : answer? fuel words variableText = respond? fuel config := by
    simp only [answer?, parsed]
  simp only [answered]
  refine ⟨answersByName, fun listed fuel => ⟨?_, fun scenarios => ?_⟩⟩
  · simp only [respond?, listed, ↓reduceIte]
  · simp only [respond?, listed, ↓reduceIte]

/-- `if nope while gone` tells of `nope` alone, and `if forever if --max-steps 3` prints for `if`,
for `forever` and once more for `if`. -/
theorem all_or_nothing_thrice :
    (∀ fuel, answer? fuel ["if", "nope", "while", "gone"] none = some {
      exitCode := 2
      stderr := "simp: unknown sample program: nope (try --list)\n" }) ∧
    ∃ response branch forever,
      answer? ampleFuel ["if", "forever", "if", "--max-steps", "3"] none = some response ∧
      respond? ampleFuel { scenarios := ["if"], maxSteps := some 3 } = some branch ∧
      respond? ampleFuel { scenarios := ["forever"], maxSteps := some 3 } = some forever ∧
      response.stdout = branch.stdout ++ (forever.stdout ++ branch.stdout) := by
  constructor
  · have parsed : parse ["if", "nope", "while", "gone"] none =
        .ok { scenarios := ["if", "nope", "while", "gone"] } := by
      decide
    obtain ⟨before, name, rest, split, known, unknown, answered⟩ :=
      ((all_or_nothing parsed).1 rfl).refused ⟨"nope", by decide, by decide⟩
    have first : name = "nope" := by
      rcases before with _ | ⟨_, _ | ⟨second, _⟩⟩
      · cases split
        exact absurd unknown (by decide)
      · cases split
        rfl
      · simp only [List.cons_append, List.cons.injEq] at split
        obtain ⟨_, rfl, _⟩ := split
        exact absurd (by decide) (known "nope" (by simp))
    subst first
    exact answered
  · have parsed : parse ["if", "forever", "if", "--max-steps", "3"] none =
        .ok { scenarios := ["if", "forever", "if"], maxSteps := some 3 } := by
      decide
    have answers := (all_or_nothing parsed).1 rfl
    obtain ⟨response, ended⟩ := answers.ends (by rintro _ ⟨⟩; decide)
    have ended := ended ampleFuel le_rfl
    obtain ⟨singles, each, printed, _⟩ := answers.printed (by decide) ended
    simp only [Config.names, List.isEmpty_cons, Bool.false_eq_true, ↓reduceIte, List.mapM_cons,
      List.mapM_nil, Option.bind_eq_bind, Option.bind_eq_some_iff, Option.pure_def,
      Option.some.injEq] at each
    obtain ⟨branch, asked, _, each, rfl⟩ := each
    obtain ⟨forever, askedForever, _, ⟨again, askedAgain, _, rfl, rfl⟩, rfl⟩ := each
    obtain rfl : branch = again := Option.some.inj (asked.symm.trans askedAgain)
    refine ⟨response, branch, forever, ended, asked, askedForever, ?_⟩
    rw [printed]
    simp

end CommandLine

end Concord
