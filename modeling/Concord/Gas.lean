import Concord.Fault

/-! # Gas

A counter of the units of work a run has done, with or without a limit. Every unit is counted, also
the one that goes over the limit and makes the run fail. The counter is a 64-bit word and goes on
from zero after its last value.
-/

namespace Concord

/-- Units used so far, and how many may be used. -/
structure Gas where
  used : UInt64 := 0
  limit : Option UInt64 := none
deriving DecidableEq

namespace Gas

/-- A counter that never runs out. -/
def unlimited : Gas := {}

/-- A fresh counter that allows `limit` units. -/
def limited (limit : UInt64) : Gas := { limit := some limit }

def ofLimit (limit : Option UInt64) : Gas := { limit }

/-- The counter after one more unit. -/
def spend (gas : Gas) : Gas := { gas with used := gas.used + 1 }

/-- The fault of a counter that is over its limit. -/
def check (gas : Gas) : Except Fault Unit :=
  match gas.limit with
  | none => .ok ()
  | some limit => if limit < gas.used then .error (.stepLimitExceeded limit) else .ok ()

/-- Counts one unit and fails when that is more than the limit allows. -/
def tick (gas : Gas) : Except Fault Unit × Gas :=
  (gas.spend.check, gas.spend)

@[simp] theorem spend_used (gas : Gas) : gas.spend.used = gas.used + 1 := rfl

@[simp] theorem spend_limit (gas : Gas) : gas.spend.limit = gas.limit := rfl

theorem check_eq_error_iff (gas : Gas) (fault : Fault) :
    gas.check = .error fault ↔
      ∃ limit, gas.limit = some limit ∧ limit < gas.used ∧ fault = .stepLimitExceeded limit := by
  unfold check
  cases gas.limit with
  | none => simp
  | some limit =>
    by_cases exceeded : limit < gas.used <;> simp [exceeded, eq_comm]

end Gas

end Concord
