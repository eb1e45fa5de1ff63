import Concord.Environment.Basic
import Concord.Stmt
import Concord.Strategy

/-! # Events

What a run reports while it goes on. An event is a record of what happened; how it is shown (its
level and its named text fields) is decided here and nowhere else.
-/

namespace Concord

/-- Something a run reports. -/
inductive Event where
  /-- A run under a strategy begins. -/
  | runStarted (strategy : Strategy)
  /-- A machine begins to step. -/
  | machineStarted (statement : Stmt) (limit : Option UInt64)
  /-- A machine has made its step number `step` and is now in the given state. -/
  | reduced (step : UInt64) (statement : Stmt) (environment : Environment)
  /-- A machine has reached a normal form. -/
  | machineHalted (steps : UInt64)
  /-- A loop has completed an iteration; `count`, where kept, is its number in this loop entry. -/
  | iterated (count : Option UInt64) (environment : Environment)
  /-- A run has ended in a fault. -/
  | runFailed (fault : Fault)
deriving DecidableEq

/-- How much detail an event is about. -/
inductive Event.Level where
  | debug
  | trace
deriving DecidableEq

namespace Event

/-- Single steps and iterations are finer detail than the ends of a run. -/
def level : Event → Level
  | reduced .. => .trace
  | iterated .. => .trace
  | _ => .debug

/-- The name of the span that the event opens. -/
def span? : Event → Option String
  | runStarted _ => some "run"
  | _ => none

def limitText : Option UInt64 → String
  | none => "None"
  | some limit => "Some(" ++ toString limit.toNat ++ ")"

def fields : Event → List (String × String)
  | runStarted strategy => [("strategy", strategy.name)]
  | machineStarted statement limit =>
    [("message", "machine run"), ("statement", statement.text), ("limit", limitText limit)]
  | reduced step statement environment =>
    [("message", "reduced"), ("step", toString step.toNat), ("statement", statement.text),
      ("environment", environment.text)]
  | machineHalted steps => [("message", "machine halted"), ("steps", toString steps.toNat)]
  | iterated count environment =>
    [("message", "while iteration")]
      ++ (count.map fun n => ("iterations", toString n.toNat)).toList
      ++ [("env", environment.text)]
  | runFailed fault => [("message", "run failed"), ("error", fault.message)]

/-- The environment after a loop iteration, if the event is about one. -/
def iteration? : Event → Option Environment
  | iterated _ environment => some environment
  | _ => none

end Event

end Concord
