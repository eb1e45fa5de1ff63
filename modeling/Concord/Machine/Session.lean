import Concord.Machine.Basic

/-! # Sessions with a machine

A session is a machine together with all that has come out of traces. Its owner may step the
machine, run it, give it fresh gas or another sink in any order, and may let a copy of it run: a
copy has a state and gas of its own but shares the buffer.
-/

namespace Concord.Machine

/-- Something to be done with a machine. -/
inductive Action where
  | step
  | run
  /-- Run a copy and leave the machine as it is. -/
  | runCopy
  /-- Give the machine fresh gas with a limit. -/
  | limitTo (limit : UInt64)
  /-- Give the machine gas that may be partly used. -/
  | refuel (gas : Gas)
  | traceTo (sink : Sink)
  | clearTrace
deriving DecidableEq

/-- The answer to an action. -/
inductive Reply where
  | done
  | stepped (result : Except Fault Unit)
  | ended (result : Result)
deriving DecidableEq

/-- A machine and what has come out of traces so far. -/
structure Session where
  machine : Machine
  trace : Trace := {}

namespace Session

/-- Does one thing; `none` says that the fuel was too little for a run. -/
def perform (fuel : Nat) (session : Session) : Action → Option (Reply × Session)
  | .step =>
    let (result, machine, trace) := session.machine.tracedStep session.trace
    some (.stepped result, { machine, trace })
  | .run => do
    let (result, machine, trace) ← session.machine.run fuel session.trace
    return (.ended result, { machine, trace })
  | .runCopy => do
    let (result, _, trace) ← session.machine.run fuel session.trace
    return (.ended result, { session with trace })
  | .limitTo limit =>
    some (.done, { session with machine := { session.machine with gas := .limited limit } })
  | .refuel gas => some (.done, { session with machine := { session.machine with gas } })
  | .traceTo sink => some (.done, { session with machine := { session.machine with sink } })
  | .clearTrace => some (.done, { session with trace := session.trace.clear })

def performAll (fuel : Nat) : Session → List Action → Option (List Reply × Session)
  | session, [] => some ([], session)
  | session, action :: rest => do
    let (reply, session) ← session.perform fuel action
    let (replies, session) ← performAll fuel session rest
    return (reply :: replies, session)

end Session

end Concord.Machine
