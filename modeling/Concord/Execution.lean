import Concord.Denotation
import Concord.Evaluation
import Concord.Machine.Basic
import Concord.Outcome

/-! # Execution under a strategy

One function runs a statement under any of the three strategies, with or without a step budget, and
keeps what came of it: the result, the machine's trace, and the events reported on the way. The
trace is captured and never printed; only a machine has one.
-/

namespace Concord

/-- What a run under one strategy has shown. -/
structure Run where
  strategy : Strategy
  result : Result
  /-- The result as it is shown. -/
  outcome : Outcome := .ofResult result
  /-- The lines of the machine's trace; empty for the other strategies. -/
  trace : List String := []
deriving DecidableEq

/-- A run, with the events that it has reported. -/
structure Execution extends Run where
  events : List Event

/-- The event that closes a failed run. -/
def Event.closing : Result → List Event
  | .ok _ => []
  | .error fault => [.runFailed fault]

/-- A run, with its own events between those that open and close it. -/
def Execution.ofRun (run : Run) (events : Array Event) : Execution where
  toRun := run
  events := .runStarted run.strategy :: (events.toList ++ Event.closing run.result)

/-- Runs a statement; `none` says that the fuel was too little. -/
def Strategy.execute (strategy : Strategy) (fuel : Nat) (s : Stmt) (env : Environment)
    (limit : Option UInt64) : Option Execution :=
  match strategy with
  | smallStep => do
    let machine : Machine :=
      { statement := s, environment := env, gas := .ofLimit limit, sink := .buffer }
    let (result, _, trace) ← machine.run fuel {}
    return .ofRun { strategy := smallStep, result, trace := trace.lines } trace.events
  | bigStep => do
    let (result, meter) ← (s.eval fuel env).run { gas := .ofLimit limit }
    return .ofRun { strategy := bigStep, result } meter.events
  | denotational => do
    let (result, meter) ← (s.meaning.apply fuel env).run { gas := .ofLimit limit }
    return .ofRun { strategy := denotational, result } meter.events

end Concord
