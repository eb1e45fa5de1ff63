import Concord.Proofs.Budget
import Concord.Proofs.Lockstep

/-! # What a computation reports

`Metered.Emits` says how a metered computation goes that is started with some gas: what it comes to,
the gas that it leaves, and the iterations that it reports on the way, whatever has been reported
before. It holds of a computation that is made of parts when it holds of the parts; and a run that
has come to its end can be taken apart into the runs of the parts, up to the one that has failed.
-/

namespace Concord

theorem Meter.iterations_push (meter : Meter) (event : Event) :
    ({ meter with events := meter.events.push event } : Meter).iterations =
      meter.iterations ++ event.iteration?.toList :=
  congrArg Prod.snd (meter.shown_push event)

namespace Metered

variable {α β : Type} {gas left : Gas} {log : List Environment}

/-- Started with the given gas, the computation comes to the result, leaves the other gas, and
reports the iterations that have led to the environments of the log. -/
def Emits (computation : Metered α) (gas : Gas) (result : Except Fault α) (left : Gas)
    (log : List Environment) : Prop :=
  ∀ meter, meter.gas = gas →
    ∃ after, computation.run meter = some (result, after) ∧
      after.shown = (left, meter.iterations ++ log)

theorem Emits.pure (a : α) (gas : Gas) : (pure a : Metered α).Emits gas (.ok a) gas [] := by
  rintro meter rfl
  exact ⟨meter, rfl, by rw [Meter.shown, List.append_nil]⟩

theorem Emits.lift_bind {value : Except Fault α} {next : α → Metered β} {a : α}
    {result : Except Fault β} (known : value = .ok a)
    (onward : (next a).Emits gas result left log) :
    (lift value >>= next).Emits gas result left log := by
  subst known
  exact onward

theorem Emits.lift_bind_fault {value : Except Fault α} {fault : Fault}
    (failed : value = .error fault) (next : α → Metered β) (gas : Gas) :
    (lift value >>= next).Emits gas (.error fault) gas [] := by
  subst failed
  rintro meter rfl
  exact ⟨meter, rfl, by rw [Meter.shown, List.append_nil]⟩

theorem Emits.tick_refused {fault : Fault} (refused : gas.spend.check = .error fault)
    (next : Unit → Metered β) : (tick >>= next).Emits gas (.error fault) gas.spend [] := by
  rintro meter rfl
  refine ⟨{ meter with gas := meter.gas.spend }, ?_, by rw [List.append_nil]; rfl⟩
  rw [run_bind, run_tick, refused]

theorem Emits.tick_bind {next : Unit → Metered β} {result : Except Fault β}
    (granted : gas.spend.check = .ok ()) (onward : (next ()).Emits gas.spend result left log) :
    (tick >>= next).Emits gas result left log := by
  rintro meter rfl
  rw [run_bind, run_tick, granted]
  exact onward { meter with gas := meter.gas.spend } rfl

theorem Emits.report_bind {event : Event} {next : Unit → Metered β} {result : Except Fault β}
    (onward : (next ()).Emits gas result left log) :
    (report event >>= next).Emits gas result left (event.iteration?.toList ++ log) := by
  rintro meter rfl
  obtain ⟨after, ran, shown⟩ := onward { meter with events := meter.events.push event } rfl
  refine ⟨after, ran, ?_⟩
  rw [shown, meter.iterations_push, List.append_assoc]

/-- What follows reports after what has gone before. -/
theorem Emits.bind {computation : Metered α} {next : α → Metered β} {middle : Gas} {a : α}
    {result : Except Fault β} {before : List Environment}
    (value : computation.Emits gas (.ok a) middle before)
    (onward : (next a).Emits middle result left log) :
    (computation >>= next).Emits gas result left (before ++ log) := by
  intro meter same
  obtain ⟨between, ran, shown⟩ := value meter same
  obtain ⟨gasBetween, reported⟩ := Prod.mk.inj shown
  obtain ⟨after, ranOn, shownAfter⟩ := onward between gasBetween
  refine ⟨after, ?_, ?_⟩
  · rw [run_bind, ran]
    exact ranOn
  · rw [shownAfter, reported, List.append_assoc]

/-- Nothing is reported after a fault. -/
theorem Emits.bind_fault {computation : Metered α} {fault : Fault}
    (failed : computation.Emits gas (.error fault) left log) (next : α → Metered β) :
    (computation >>= next).Emits gas (.error fault) left log := by
  intro meter same
  obtain ⟨after, ran, shown⟩ := failed meter same
  exact ⟨after, by rw [run_bind, ran], shown⟩

/-- More fuel does not change what a computation reports that has come to its end. -/
theorem Emits.of_below {small large : Metered α} {result : Except Fault α}
    (emits : small.Emits gas result left log) (below : small.Below large) :
    large.Emits gas result left log := by
  intro meter same
  obtain ⟨after, ran, shown⟩ := emits meter same
  exact ⟨after, below meter _ ran, shown⟩

/-- A run goes on behind a computation that has come to a value, and behind no other. -/
theorem run_bind_eq_some {computation : Metered α} {next : α → Metered β} {meter after : Meter}
    {result : Except Fault β} (ran : (computation >>= next).run meter = some (result, after)) :
    (∃ fault, computation.run meter = some (.error fault, after) ∧ result = .error fault) ∨
      ∃ a middle, computation.run meter = some (.ok a, middle) ∧
        (next a).run middle = some (result, after) := by
  rw [run_bind] at ran
  rcases first : computation.run meter with _ | ⟨fault | a, middle⟩
  · rw [first] at ran
    cases ran
  · rw [first] at ran
    cases ran
    exact .inl ⟨fault, rfl, rfl⟩
  · rw [first] at ran
    exact .inr ⟨a, middle, rfl, ran⟩

/-- A run goes on behind a unit of gas that is granted, and behind no other. -/
theorem run_tick_bind_eq_some {next : Unit → Metered β} {meter after : Meter}
    {result : Except Fault β} (ran : (tick >>= next).run meter = some (result, after)) :
    (∃ fault, meter.gas.spend.check = .error fault ∧ result = .error fault ∧
        after = { meter with gas := meter.gas.spend }) ∨
      meter.gas.spend.check = .ok () ∧
        (next ()).run { meter with gas := meter.gas.spend } = some (result, after) := by
  rw [run_bind, run_tick] at ran
  cases granted : meter.gas.spend.check with
  | error fault =>
    rw [granted] at ran
    cases ran
    exact .inl ⟨fault, rfl, rfl, rfl⟩
  | ok =>
    rw [granted] at ran
    exact .inr ⟨rfl, ran⟩

end Metered

end Concord
