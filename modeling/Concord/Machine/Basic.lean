import Concord.Gas
import Concord.Reduction
import Concord.Trace

/-! # The reduction machine

A machine holds a statement that is being reduced, with its environment. A step uses one
unit of gas and then reduces the statement; when either fails, statement, environment and step
count stay as they were, and the unit stays used. A run steps until the statement is in normal form
and shows every state on the way, the first and the last included.
-/

namespace Concord

/-- A statement that is being reduced. -/
structure Machine where
  statement : Stmt
  environment : Environment
  gas : Gas := .unlimited
  /-- The successful steps made so far. -/
  steps : UInt64 := 0
  sink : Sink := .stdout

namespace Machine

def line (machine : Machine) : String :=
  machine.statement.text ++ ", " ++ machine.environment.text

def step (machine : Machine) : Except Fault Unit × Machine :=
  match machine.gas.tick with
  | (.error fault, gas) => (.error fault, { machine with gas })
  | (.ok (), gas) =>
    match machine.statement.reduce machine.environment with
    | .error fault => (.error fault, { machine with gas })
    | .ok (statement, environment) =>
      (.ok (), { machine with statement, environment, gas, steps := machine.steps + 1 })

/-- The event by which a step reports the state that it has reached. -/
def reached (machine : Machine) : Event :=
  .reduced machine.steps machine.statement machine.environment

/-- Hands the line of the current state to the machine's sink. -/
def emit (machine : Machine) (trace : Trace) : Trace :=
  trace.emit machine.sink machine.line

/-- One step that reports the state reached. -/
def tracedStep (machine : Machine) (trace : Trace) : Except Fault Unit × Machine × Trace :=
  match machine.step with
  | (.error fault, machine) => (.error fault, machine, trace)
  | (.ok (), machine) => (.ok (), machine, trace.report machine.reached)

/-- Steps to the normal form, at most `fuel` times, and emits each state reached. -/
def finish : Nat → Machine → Trace → Option (Result × Machine × Trace)
  | 0, _, _ => none
  | fuel + 1, machine, trace =>
    if machine.statement.isReducible then
      match machine.tracedStep trace with
      | (.error fault, machine, trace) => some (.error fault, machine, trace)
      | (.ok (), machine, trace) => finish fuel machine (machine.emit trace)
    else
      some (.ok machine.environment, machine, trace.report (.machineHalted machine.steps))

/-- Runs to the normal form: announces itself, emits the current state, then steps. -/
def run (fuel : Nat) (machine : Machine) (trace : Trace) :
    Option (Result × Machine × Trace) :=
  finish fuel machine
    (machine.emit (trace.report (.machineStarted machine.statement machine.gas.limit)))

end Machine

end Concord
