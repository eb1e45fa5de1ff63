import Concord.Report.Basic

/-! # Reports as JSON

A report is one object on one line. A run without a trace has no member for it.
-/

namespace Concord

def Run.toJson (run : Run) : Json :=
  .object ([("strategy", .string run.strategy.name), ("outcome", run.outcome.toJson)] ++
    if run.trace.isEmpty then [] else [("trace", .array (run.trace.map .string))])

namespace Report

def limitJson : Option UInt64 → Json
  | none => .null
  | some limit => .integer limit.toNat

def toJson (report : Report) : Json :=
  .object [
    ("name", .string report.name),
    ("program", .string report.program),
    ("initial", report.initial.toJson),
    ("step_limit", limitJson report.stepLimit),
    ("runs", .array (report.runs.map Run.toJson)),
    ("agree", .bool report.agree),
    ("expected", .bool report.expected)]

end Report

end Concord
