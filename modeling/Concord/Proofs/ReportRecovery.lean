import Concord.Proofs.RoundTrip
import Concord.Report.Json

/-! # Reports written and read back

The JSON form of a report is one line, and tells everything about the report that it has a member
for: the outcome of a run as it is shown, and not the result behind it. A reader finds all of it
again, whatever the names, messages and trace lines are: `Report.json_recovered`. A run without a
trace is one whose trace is empty.
-/

namespace Concord

def Json.asString? : Json → Option String
  | .string text => some text
  | _ => none

/-- The texts of JSON strings. -/
@[simp] theorem Json.mapM_asString? (texts : List String) :
    (texts.map string).mapM asString? = some texts := by
  have restored (text : String) : asString? (string text) = some (id text) := rfl
  rw [mapM_map_eq_some restored, List.map_id]

namespace Outcome

def ofJson? : Json → Option Outcome
  | .object [("status", .string "finished"), ("environment", environment)] =>
    (Environment.ofJson? environment).map finished
  | .object [("status", .string "failed"), ("error", .string message)] => some (failed message)
  | _ => none

@[simp] theorem plain_toJson (outcome : Outcome) : outcome.toJson.Plain := by
  cases outcome <;> simp [toJson]

@[simp] theorem ofJson?_toJson (outcome : Outcome) : ofJson? outcome.toJson = some outcome := by
  cases outcome <;> simp [toJson, ofJson?]

end Outcome

namespace Run

/-- What the JSON form of a run tells of it. -/
structure Summary where
  strategy : Strategy
  outcome : Outcome
  trace : List String
deriving DecidableEq

/-- All that can be told of a run: its result only as it is shown. -/
def summary (run : Run) : Summary where
  strategy := run.strategy
  outcome := run.outcome
  trace := run.trace

namespace Summary

/-- The trace in the members behind the outcome; it is empty where there are none. -/
def traceOfMembers? : List (String × Json) → Option (List String)
  | [] => some []
  | [("trace", .array lines)] => lines.mapM Json.asString?
  | _ => none

def ofJson? : Json → Option Summary
  | .object (("strategy", .string name) :: ("outcome", outcome) :: members) => do
    let strategy ← Strategy.ofName? name
    let outcome ← Outcome.ofJson? outcome
    let trace ← traceOfMembers? members
    return { strategy, outcome, trace }
  | _ => none

theorem traceOfMembers?_eq_some (trace : List String) :
    traceOfMembers? (if trace.isEmpty then [] else [("trace", .array (trace.map .string))]) =
      some trace := by
  cases trace with
  | nil => rfl
  | cons line lines => exact Json.mapM_asString? (line :: lines)

end Summary

@[simp] theorem plain_toJson (run : Run) : run.toJson.Plain := by
  unfold toJson
  split_ifs <;> simp

@[simp] theorem ofJson?_toJson (run : Run) : Summary.ofJson? run.toJson = some run.summary := by
  simp only [toJson, summary, List.cons_append, List.nil_append, Summary.ofJson?,
    Strategy.ofName?_name, Outcome.ofJson?_toJson, Summary.traceOfMembers?_eq_some]
  rfl

/-- The JSON form of a run depends on nothing that it does not tell. -/
theorem toJson_congr {run other : Run} (same : run.summary = other.summary) :
    run.toJson = other.toJson := by
  obtain ⟨strategy, outcome, trace⟩ := Summary.mk.inj same
  rw [toJson, strategy, outcome, trace, toJson]

end Run

namespace Report

/-- What the JSON form of a report tells of it. -/
structure Summary where
  name : String
  program : String
  initial : Environment
  stepLimit : Option UInt64
  runs : List Run.Summary
  agree : Bool
  expected : Bool
deriving DecidableEq

/-- All that can be told of a report: of its runs no more than can be told of each. -/
def summary (report : Report) : Summary where
  name := report.name
  program := report.program
  initial := report.initial
  stepLimit := report.stepLimit
  runs := report.runs.map Run.summary
  agree := report.agree
  expected := report.expected

def limitOfJson? : Json → Option (Option UInt64)
  | .null => some none
  | .integer n => if 0 ≤ n ∧ n.toNat < UInt64.size then some (some (.ofNat n.toNat)) else none
  | _ => none

namespace Summary

def ofJson? : Json → Option Summary
  | .object [("name", .string name), ("program", .string program), ("initial", initial),
      ("step_limit", limit), ("runs", .array runs), ("agree", .bool agree),
      ("expected", .bool expected)] => do
    let initial ← Environment.ofJson? initial
    let stepLimit ← limitOfJson? limit
    let runs ← runs.mapM Run.Summary.ofJson?
    return { name, program, initial, stepLimit, runs, agree, expected }
  | _ => none

/-- What a text tells of a report. -/
def read? (text : String) : Option Summary := (Json.parse? text).bind ofJson?

end Summary

@[simp] theorem plain_limitJson (limit : Option UInt64) : (limitJson limit).Plain := by
  cases limit <;> simp [limitJson]

@[simp] theorem limitOfJson?_limitJson (limit : Option UInt64) :
    limitOfJson? (limitJson limit) = some limit := by
  cases limit with
  | none => rfl
  | some limit =>
    have fits : 0 ≤ (limit.toNat : Int) ∧ (limit.toNat : Int).toNat < UInt64.size :=
      ⟨Int.natCast_nonneg _, limit.toNat_lt_size⟩
    rw [limitJson, limitOfJson?, if_pos fits, Int.toNat_natCast, UInt64.ofNat_toNat]

@[simp] theorem plain_toJson (report : Report) : report.toJson.Plain := by
  simp [toJson]

@[simp] theorem ofJson?_toJson (report : Report) :
    Summary.ofJson? report.toJson = some report.summary := by
  have runs := mapM_map_eq_some Run.ofJson?_toJson report.runs
  simp [toJson, summary, Summary.ofJson?, runs]

/-- The JSON form of a report depends on nothing that it does not tell. -/
theorem toJson_congr {report other : Report} (same : report.summary = other.summary) :
    report.toJson = other.toJson := by
  obtain ⟨name, program, initial, stepLimit, runs, agree, expected⟩ := Summary.mk.inj same
  have forms : report.runs.map Run.toJson = other.runs.map Run.toJson := by
    rw [← List.forall₂_eq_eq_eq, List.forall₂_map_left_iff, List.forall₂_map_right_iff] at runs ⊢
    exact runs.imp fun _ _ => Run.toJson_congr
  rw [toJson, name, program, initial, stepLimit, forms, agree, expected, toJson]

/-- A report is read back from its text. -/
theorem read?_compact (report : Report) :
    Summary.read? report.toJson.compact = some report.summary := by
  rw [Summary.read?, Json.parse?_compact (plain_toJson report), Option.bind_some, ofJson?_toJson]

/-- The JSON form of a report is one line of strict JSON, from which all that it tells is read back;
so reports are written alike exactly if they tell the same. -/
theorem json_recovered (report other : Report) :
    (∀ c ∈ report.toJson.compact.toList, 0x20 ≤ c.toNat) ∧
    report.toJson.compact.toList ∈ report.toJson.texts ∧
    Summary.read? report.toJson.compact = some report.summary ∧
    (report.toJson.compact = other.toJson.compact ↔ report.summary = other.summary) := by
  have plain := plain_toJson report
  refine ⟨Json.le_toNat_of_mem_compact plain, Json.compact_mem_texts plain,
    read?_compact report, fun same => ?_, fun same => by rw [toJson_congr same]⟩
  have read := congrArg Summary.read? same
  rwa [read?_compact, read?_compact, Option.some.injEq] at read

end Report

end Concord
