import Concord.Lines
import Concord.Report.Basic

/-! # Reports as text

A report is a header, a line on the step limit if there is one, the runs, and a verdict. Of a long
trace the first lines are shown and the rest are counted.
-/

namespace Concord.Report

def shownTraceLines : Nat := 40

def traceLines (trace : List String) : List String :=
  (trace.take shownTraceLines).map ("   | " ++ ·) ++
    if shownTraceLines < trace.length then
      ["   | ... " ++ toString (trace.length - shownTraceLines) ++ " more"]
    else []

def runLines (showTrace : Bool) (run : Run) : List String :=
  (if showTrace then traceLines run.trace else []) ++
    ["   " ++ Lines.padded 13 run.strategy.name ++ " " ++ run.outcome.text]

/-- The last word on a report; a disagreement outweighs an unexpected outcome. -/
def verdict (report : Report) : String :=
  if report.agree then
    if report.expected then "ok" else "FAILED: unexpected outcome"
  else "FAILED: strategies disagree"

def limitLines : Option UInt64 → List String
  | none => []
  | some limit => ["   (step limit " ++ toString limit.toNat ++ ")"]

def lines (report : Report) (showTrace : Bool) : List String :=
  ["== " ++ report.name ++ ": " ++ report.program ++ ", " ++ report.initial.text]
    ++ limitLines report.stepLimit
    ++ report.runs.flatMap (runLines showTrace)
    ++ ["   " ++ report.verdict]

/-- The report as text for a reader. -/
def text (report : Report) (showTrace : Bool) : String :=
  Lines.terminated (report.lines showTrace)

end Concord.Report
