import Concord.Proofs.Json.Numerals
import Concord.Report.Text

/-! # Reports as text, line by line

A text that is put together from lines falls apart into the same lines again, as long as none of
them has a line break of its own. So the lines of a report can be told from its text alone. They
account for every trace: a line of it is shown in its place or counted among those left out, however
long the trace is.
-/

namespace Concord

namespace Lines

/-- What stands before, between and behind the line breaks of a text. -/
def split (text : String) : List String := (text.toList.splitOn '\n').map String.ofList

/-- A text without line breaks. -/
def Unbroken (text : String) : Prop := '\n' ∉ text.toList

instance (text : String) : Decidable (Unbroken text) :=
  inferInstanceAs (Decidable (¬ _))

@[simp] theorem unbroken_append {first second : String} :
    Unbroken (first ++ second) ↔ Unbroken first ∧ Unbroken second := by
  simp [Unbroken]

/-- Texts are put together without line breaks if there are none between them either. -/
theorem Unbroken.intercalate {separator : String} (between : Unbroken separator)
    {texts : List String} (unbroken : ∀ text ∈ texts, Unbroken text) :
    Unbroken (separator.intercalate texts) := by
  induction texts with
  | nil => simp [Unbroken]
  | cons text texts ih =>
    obtain ⟨isText, others⟩ := List.forall_mem_cons.mp unbroken
    cases texts with
    | nil => rwa [String.intercalate_singleton]
    | cons next texts =>
      rw [String.intercalate_cons_cons, unbroken_append, unbroken_append]
      exact ⟨⟨isText, between⟩, ih others⟩

theorem Unbroken.padded {text : String} (unbroken : Unbroken text) (width : ℕ) :
    Unbroken (padded width text) := by
  have blanks : Unbroken (String.ofList (List.replicate (width - text.length) ' ')) := by
    simp [Unbroken]
  exact unbroken_append.mpr ⟨unbroken, blanks⟩

theorem unbroken_toString_int (n : Int) : Unbroken (toString n) := by
  intro broken
  have control := Json.Numeral.le_toNat_of_isNumeralChar
    (Json.Numeral.isNumeralChar_of_mem_numeral (Json.Numeral.toString_mem_numeral n) _ broken)
  simp at control

theorem unbroken_toString_nat (n : ℕ) : Unbroken (toString n) :=
  unbroken_toString_int n

/-- Lines that are put together and have no line breaks of their own are told apart again. -/
theorem split_terminated {lines : List String} (unbroken : ∀ line ∈ lines, Unbroken line) :
    split (terminated lines) = lines ++ [""] := by
  induction lines with
  | nil => rfl
  | cons line lines ih =>
    obtain ⟨isLine, others⟩ := List.forall_mem_cons.mp unbroken
    have apart : ∀ c ∈ line.toList, (c == '\n') = false := by
      intro c mem
      exact beq_eq_false_iff_ne.mpr fun same => isLine (same ▸ mem)
    have front : (terminated (line :: lines)).toList =
        line.toList ++ '\n' :: (terminated lines).toList := by
      simp [terminated]
    rw [split, front, List.splitOn, List.splitOnP_append_cons_of_forall_mem apart '\n' rfl]
    simpa [split, List.splitOn] using ih others

end Lines

open Lines

def Environment.Unbroken (env : Environment) : Prop :=
  ∀ binding ∈ env.toList, Lines.Unbroken binding.1

def Outcome.Unbroken : Outcome → Prop
  | finished env => env.Unbroken
  | failed message => Lines.Unbroken message

structure Run.Unbroken (run : Run) : Prop where
  outcome : run.outcome.Unbroken
  trace : ∀ line ∈ run.trace, Lines.Unbroken line

structure Report.Unbroken (report : Report) : Prop where
  name : Lines.Unbroken report.name
  program : Lines.Unbroken report.program
  initial : report.initial.Unbroken
  runs : ∀ run ∈ report.runs, run.Unbroken

theorem Value.unbroken_text (value : Value) : Lines.Unbroken value.text := by
  cases value with
  | number n => exact unbroken_toString_int n.val
  | boolean b => cases b <;> decide

theorem Environment.Unbroken.text {env : Environment} (unbroken : env.Unbroken) :
    Lines.Unbroken env.text := by
  rw [Environment.text, unbroken_append, unbroken_append]
  refine ⟨⟨by decide, .intercalate (by decide) ?_⟩, by decide⟩
  rw [List.forall_mem_map]
  intro binding mem
  simp only [unbroken_append]
  exact ⟨⟨unbroken binding mem, by decide⟩, binding.2.unbroken_text⟩

theorem Outcome.Unbroken.text {outcome : Outcome} (unbroken : outcome.Unbroken) :
    Lines.Unbroken outcome.text := by
  cases outcome with
  | finished env => exact Environment.Unbroken.text unbroken
  | failed message => exact unbroken_append.mpr ⟨by decide, unbroken⟩

namespace Report

theorem unbroken_traceLines {trace : List String} (unbroken : ∀ line ∈ trace, Lines.Unbroken line) :
    ∀ line ∈ traceLines trace, Lines.Unbroken line := by
  rw [traceLines, List.forall_mem_append, List.forall_mem_map]
  constructor
  · intro line shown
    exact unbroken_append.mpr ⟨by decide, unbroken line (List.mem_of_mem_take shown)⟩
  · split_ifs
    · rw [List.forall_mem_singleton, unbroken_append, unbroken_append]
      exact ⟨⟨by decide, unbroken_toString_nat _⟩, by decide⟩
    · nofun

theorem unbroken_runLines {run : Run} (unbroken : run.Unbroken) (showTrace : Bool) :
    ∀ line ∈ runLines showTrace run, Lines.Unbroken line := by
  have strategy : Lines.Unbroken run.strategy.name := by cases run.strategy <;> decide
  rw [runLines, List.forall_mem_append, List.forall_mem_singleton]
  simp only [unbroken_append]
  refine ⟨?_, ⟨⟨by decide, strategy.padded 13⟩, by decide⟩, unbroken.outcome.text⟩
  cases showTrace with
  | true => exact unbroken_traceLines unbroken.trace
  | false => nofun

/-- The lines of a report have no line breaks of their own. -/
theorem Unbroken.lines {report : Report} (unbroken : report.Unbroken) (showTrace : Bool) :
    ∀ line ∈ report.lines showTrace, Lines.Unbroken line := by
  simp only [Report.lines, List.forall_mem_append, List.forall_mem_singleton, unbroken_append,
    List.forall_mem_flatMap]
  refine ⟨⟨⟨?_, ?_⟩, fun run mem => unbroken_runLines (unbroken.runs run mem) showTrace⟩,
    by decide, ?_⟩
  · exact ⟨⟨⟨⟨⟨by decide, unbroken.name⟩, by decide⟩, unbroken.program⟩, by decide⟩,
      unbroken.initial.text⟩
  · cases report.stepLimit with
    | none => nofun
    | some limit =>
      rw [limitLines, List.forall_mem_singleton, unbroken_append, unbroken_append]
      exact ⟨⟨by decide, unbroken_toString_nat _⟩, by decide⟩
  · unfold verdict
    split_ifs <;> decide

/-- Lines that account for a trace: its first forty lines in their order, and if there are more, one
line that says how many. -/
inductive Accounts : List String → List String → Prop where
  | whole {trace : List String} (short : trace.length ≤ 40) :
    Accounts trace (trace.map ("   | " ++ ·))
  | cut {shown rest : List String} (full : shown.length = 40) (more : rest ≠ []) :
    Accounts (shown ++ rest)
      (shown.map ("   | " ++ ·) ++ ["   | ... " ++ toString rest.length ++ " more"])

theorem accounts_traceLines (trace : List String) : Accounts trace (traceLines trace) := by
  unfold traceLines
  split_ifs with long
  · have full : (trace.take shownTraceLines).length = 40 :=
      List.length_take_of_le (Nat.le_of_lt long)
    have more : trace.drop shownTraceLines ≠ [] := by
      rwa [ne_eq, List.drop_eq_nil_iff, Nat.not_le]
    have account := Accounts.cut full more
    rwa [List.take_append_drop, List.length_drop] at account
  · rw [List.append_nil, List.take_of_length_le (Nat.not_lt.mp long)]
    exact .whole (Nat.not_lt.mp long)

/-- Of a long trace the lines that are not shown are counted. -/
theorem Accounts.counted {trace account : List String} (accounts : Accounts trace account)
    (long : 40 < trace.length) :
    "   | ... " ++ toString (trace.length - 40) ++ " more" ∈ account := by
  cases accounts with
  | whole short => exact absurd long (Nat.not_lt.mpr short)
  | cut full more => simp [full]

def header (report : Report) : String :=
  "== " ++ report.name ++ ": " ++ report.program ++ ", " ++ report.initial.text

def limitLine (limit : UInt64) : String := "   (step limit " ++ toString limit.toNat ++ ")"

def outcomeLine (run : Run) : String :=
  "   " ++ Lines.padded 13 run.strategy.name ++ " " ++ run.outcome.text

/-- The lines for a run: those that account for its trace, if traces are shown, and then the one for
its outcome. -/
inductive Presents : Bool → Run → List String → Prop where
  | traced {run : Run} {account : List String} (accounts : Accounts run.trace account) :
    Presents true run (account ++ [outcomeLine run])
  | untraced {run : Run} : Presents false run [outcomeLine run]

theorem presents_runLines (showTrace : Bool) (run : Run) :
    Presents showTrace run (runLines showTrace run) := by
  cases showTrace with
  | true => exact .traced (accounts_traceLines run.trace)
  | false => exact .untraced

/-- The report, with all traces emptied. -/
def untraced (report : Report) : Report :=
  { report with runs := report.runs.map fun run => { run with trace := [] } }

/-- A report without traces is shown alike, whether they are asked for or not. -/
theorem lines_untraced (report : Report) (showTrace : Bool) :
    report.untraced.lines showTrace = report.lines false := by
  have runs : (fun run => runLines showTrace { run with trace := [] }) = runLines false := by
    cases showTrace <;> rfl
  simp only [lines, untraced, List.flatMap_map, runs]
  rfl

theorem verdict_eq_ok_iff (report : Report) : report.verdict = "ok" ↔ report.passed = true := by
  unfold verdict passed
  split_ifs <;> simp_all

theorem verdict_eq_disagree_iff (report : Report) :
    report.verdict = "FAILED: strategies disagree" ↔ report.agree = false := by
  unfold verdict
  split_ifs <;> simp_all

/-- The lines of a report can be told from its text, and account for every line of every trace,
whether it is shown or counted. Without its traces a report is shown as one that has none. The last
line says whether all is well, or else whether the strategies disagree. -/
theorem text_accounts_for_traces {report : Report} (unbroken : report.Unbroken) :
    (∀ showTrace, ∃ blocks verdict,
      Lines.split (report.text showTrace) =
        [report.header] ++ report.stepLimit.toList.map limitLine ++ blocks.flatten ++
          ["   " ++ verdict] ++ [""] ∧
      List.Forall₂ (Presents showTrace) report.runs blocks ∧
      (verdict = "ok" ↔ report.passed = true) ∧
      (verdict = "FAILED: strategies disagree" ↔ report.agree = false)) ∧
    ∀ showTrace, report.text false = report.untraced.text showTrace := by
  constructor
  · intro showTrace
    refine ⟨report.runs.map (runLines showTrace), report.verdict, ?_, ?_,
      report.verdict_eq_ok_iff, report.verdict_eq_disagree_iff⟩
    · have limit : limitLines report.stepLimit = report.stepLimit.toList.map limitLine := by
        cases report.stepLimit <;> rfl
      rw [text, Lines.split_terminated (unbroken.lines showTrace), lines, limit, List.flatMap_def]
      rfl
    · rw [List.forall₂_map_right_iff, List.forall₂_same]
      exact fun run _ => presents_runLines showTrace run
  · intro showTrace
    rw [text, text, lines_untraced]

/-- A report on a run with a trace of one line more than is shown, and on one without a trace. -/
private def longReport : Report where
  name := "long"
  program := "while (x) {x = y}"
  initial := .ofList [("x", .boolean true)]
  stepLimit := some 50
  runs := [
    { strategy := .smallStep, result := .ok .empty, trace := List.replicate 41 "y" },
    { strategy := .bigStep, result := .error (.undefinedVariable "y") }]
  agree := false
  expected := false

theorem text_accounts_for_traces_long :
    longReport.Unbroken ∧ "   | ... 1 more" ∈ Lines.split (longReport.text true) ∧
      longReport.text false = longReport.untraced.text true := by
  have runs : ∀ run ∈ longReport.runs, run.Unbroken := by
    refine List.forall_mem_cons.mpr ⟨⟨List.forall_mem_nil _, ?_⟩,
      List.forall_mem_singleton.mpr ⟨?_, List.forall_mem_nil _⟩⟩
    · intro line mem
      rw [List.eq_of_mem_replicate mem]
      decide
    · exact unbroken_append.mpr ⟨by decide, by decide⟩
  have unbroken : longReport.Unbroken :=
    ⟨by decide, by decide, List.forall_mem_singleton.mpr (by decide), runs⟩
  obtain ⟨shown, hidden⟩ := text_accounts_for_traces unbroken
  obtain ⟨blocks, verdict, split, presents, _⟩ := shown true
  refine ⟨unbroken, ?_, hidden true⟩
  obtain _ | ⟨@⟨_, account, accounts⟩, _⟩ := presents
  have counted : "   | ... 1 more" ∈ account := accounts.counted (by decide)
  simp [split, counted]

end Report

end Concord
