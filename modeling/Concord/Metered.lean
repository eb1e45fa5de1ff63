import Concord.Event
import Concord.Gas

/-! # Metered computations

A metered computation uses gas and reports events, and it ends in a value or a fault; the gas used
and the events reported up to a fault are kept. The third way to end, `none`, says that the fuel
given to it was too little to tell; it is never an answer.
-/

namespace Concord

/-- What a metered computation carries along. -/
structure Meter where
  gas : Gas := .unlimited
  /-- The events reported so far, oldest first. -/
  events : Array Event := #[]
deriving DecidableEq

/-- A computation that uses gas, reports events, and may end in a fault or want for fuel. -/
def Metered (α : Type) : Type :=
  Meter → Option (Except Fault α × Meter)

namespace Metered

variable {α β : Type}

@[inline] def run (computation : Metered α) (meter : Meter) : Option (Except Fault α × Meter) :=
  computation meter

@[always_inline, inline] instance : Monad Metered where
  pure a := fun meter => some (.ok a, meter)
  bind computation next := fun meter =>
    match computation meter with
    | none => none
    | some (.error fault, meter) => some (.error fault, meter)
    | some (.ok a, meter) => next a meter

/-- Gives up for want of fuel. -/
@[inline] def starved : Metered α := fun _ => none

/-- A result that costs nothing. -/
@[inline] def lift (result : Except Fault α) : Metered α := fun meter => some (result, meter)

/-- Uses one unit of gas. -/
@[inline] def tick : Metered Unit := fun meter =>
  let (result, gas) := meter.gas.tick
  some (result, { meter with gas })

@[inline] def report (event : Event) : Metered Unit := fun meter =>
  some (.ok (), { meter with events := meter.events.push event })

@[simp] theorem run_pure (a : α) (meter : Meter) :
    (pure a : Metered α).run meter = some (.ok a, meter) := rfl

theorem run_bind (computation : Metered α) (next : α → Metered β) (meter : Meter) :
    (computation >>= next).run meter =
      match computation.run meter with
      | none => none
      | some (.error fault, meter) => some (.error fault, meter)
      | some (.ok a, meter) => (next a).run meter := rfl

@[simp] theorem run_starved (meter : Meter) : (starved : Metered α).run meter = none := rfl

@[simp] theorem run_lift (result : Except Fault α) (meter : Meter) :
    (lift result).run meter = some (result, meter) := rfl

@[simp] theorem run_tick (meter : Meter) :
    tick.run meter = some (meter.gas.spend.check, { meter with gas := meter.gas.spend }) := rfl

@[simp] theorem run_report (event : Event) (meter : Meter) :
    (report event).run meter =
      some (.ok (), { meter with events := meter.events.push event }) := rfl

@[ext] theorem ext {left right : Metered α} (same : ∀ meter, left.run meter = right.run meter) :
    left = right := funext same

private theorem id_map_metered (x : Metered α) : id <$> x = x := by
  ext meter
  simp only [Functor.map, run]
  cases x meter with
  | none => rfl
  | some ended => obtain ⟨_ | _, _⟩ := ended <;> rfl

private theorem bind_assoc_metered {γ : Type} (x : Metered α) (f : α → Metered β)
    (g : β → Metered γ) : x >>= f >>= g = x >>= fun a => f a >>= g := by
  ext meter
  simp only [run_bind]
  cases x.run meter with
  | none => rfl
  | some ended => obtain ⟨_ | _, _⟩ := ended <;> rfl

instance : LawfulMonad Metered :=
  LawfulMonad.mk' Metered id_map_metered (fun _ _ => rfl) bind_assoc_metered

end Metered

end Concord
