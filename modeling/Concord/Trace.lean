import Concord.Event
import Concord.Lines

/-! # Traces

A machine hands the line of each state that it passes through to a sink. The lines that have come
out are kept apart by where they went: printed, captured in the buffer, or dropped. Every machine
that writes into the buffer writes into the same one.
-/

namespace Concord

/-- Where trace lines go. -/
inductive Sink where
  /-- They are printed. -/
  | stdout
  /-- They are captured for later. -/
  | buffer
  /-- They are dropped. -/
  | silent
deriving DecidableEq

/-- Everything that machines have let out so far. -/
structure Trace where
  /-- The lines printed, oldest first. -/
  printed : Array String := #[]
  /-- The lines captured in the buffer, oldest first. -/
  captured : Array String := #[]
  /-- The events reported, oldest first. -/
  events : Array Event := #[]

namespace Trace

def push (trace : Trace) (line : String) : Trace :=
  { trace with captured := trace.captured.push line }

/-- Hands a line to a sink. -/
def emit (trace : Trace) : Sink → String → Trace
  | .stdout, line => { trace with printed := trace.printed.push line }
  | .buffer, line => trace.push line
  | .silent, _ => trace

def clear (trace : Trace) : Trace := { trace with captured := #[] }

def report (trace : Trace) (event : Event) : Trace :=
  { trace with events := trace.events.push event }

/-- The lines in the buffer, oldest first. -/
def lines (trace : Trace) : List String := trace.captured.toList

def output (trace : Trace) : String := Lines.terminated trace.lines

/-- What has been printed, as one text. -/
def stdout (trace : Trace) : String := Lines.terminated trace.printed.toList

end Trace

end Concord
