import Concord.Metered

/-! # What a budget does to a run

A computation touches its gas by ticks alone. It is therefore known, as far as gas goes, by its
bill: the units that it uses when nothing limits it, and how it ends after them. Under a limit the
units are counted one by one, and the first that is refused ends the run; `Gas.pay` is that rule.
`Metered.Costs` says that a computation follows the rule, and holds of the pieces from which metered
computations are made. Reported events have no part in it.
-/

namespace Concord

namespace Gas

/-- Counts units one after the other, up to the first that is refused. -/
def charge : Nat → Gas → Except Fault Unit × Gas
  | 0, gas => (.ok (), gas)
  | units + 1, gas =>
    match gas.tick with
    | (.error fault, gas) => (.error fault, gas)
    | (.ok (), gas) => charge units gas

/-- What a run comes to that uses `units` of gas and then has the given end; the end is `none` for a
run that wants for fuel. -/
def pay {α : Type} (gas : Gas) (units : Nat) (ending : Option (Except Fault α)) :
    Option (Except Fault α × Gas) :=
  match gas.charge units with
  | (.error fault, gas) => some (.error fault, gas)
  | (.ok (), gas) => ending.map (·, gas)

theorem charge_zero (gas : Gas) : gas.charge 0 = (.ok (), gas) := rfl

theorem charge_succ_of_error {gas : Gas} {fault : Fault} (refused : gas.spend.check = .error fault)
    (units : Nat) : gas.charge (units + 1) = (.error fault, gas.spend) := by
  simp only [charge, tick, refused]

theorem charge_succ_of_ok {gas : Gas} (granted : gas.spend.check = .ok ()) (units : Nat) :
    gas.charge (units + 1) = gas.spend.charge units := by
  simp only [charge, tick, granted]

/-- Units can be counted in two portions. -/
theorem charge_add (gas : Gas) (first second : Nat) :
    gas.charge (first + second) =
      match gas.charge first with
      | (.error fault, gas) => (.error fault, gas)
      | (.ok (), gas) => gas.charge second := by
  induction first generalizing gas with
  | zero => rw [Nat.zero_add, charge_zero]
  | succ first ih =>
    rw [Nat.succ_add]
    cases granted : gas.spend.check with
    | error fault => simp only [charge_succ_of_error granted]
    | ok => simp only [charge_succ_of_ok granted, ih]

/-- What is refused among some units is refused among more. -/
theorem charge_of_refused {gas left : Gas} {units more : Nat} {fault : Fault}
    (refused : gas.charge units = (.error fault, left)) (order : units ≤ more) :
    gas.charge more = (.error fault, left) := by
  obtain ⟨rest, rfl⟩ := Nat.exists_eq_add_of_le order
  rw [charge_add, refused]

/-- Only the limit refuses a unit. -/
theorem charge_fault {gas left : Gas} {units : Nat} {fault : Fault}
    (refused : gas.charge units = (.error fault, left)) :
    ∃ limit, gas.limit = some limit ∧ fault = .stepLimitExceeded limit := by
  induction units generalizing gas with
  | zero => cases refused
  | succ units ih =>
    cases granted : gas.spend.check with
    | error other =>
      rw [charge_succ_of_error granted] at refused
      cases refused
      obtain ⟨limit, limited, _, same⟩ := (check_eq_error_iff _ _).mp granted
      exact ⟨limit, limited, same⟩
    | ok =>
      rw [charge_succ_of_ok granted] at refused
      simpa only [spend_limit] using ih refused

/-- Units that are granted are counted. -/
theorem eq_of_charge_ok {gas left : Gas} {units : Nat} (granted : gas.charge units = (.ok (), left)) :
    left = { gas with used := gas.used + .ofNat units } := by
  induction units generalizing gas with
  | zero =>
    cases granted
    simp
  | succ units ih =>
    cases first : gas.spend.check with
    | error fault =>
      rw [charge_succ_of_error first] at granted
      cases granted
    | ok =>
      rw [charge_succ_of_ok first] at granted
      rw [ih granted]
      simp [spend, UInt64.ofNat_add, UInt64.add_assoc, UInt64.add_comm 1]

/-- Where units are refused, some have been granted and the next one is refused. -/
theorem exists_refused_of_charge {gas left : Gas} {units : Nat} {fault : Fault}
    (refused : gas.charge units = (.error fault, left)) :
    ∃ fewer paid, fewer < units ∧ gas.charge fewer = (.ok (), paid) ∧
      paid.tick = (.error fault, left) := by
  induction units generalizing gas with
  | zero => cases refused
  | succ units ih =>
    cases first : gas.spend.check with
    | error other =>
      rw [charge_succ_of_error first] at refused
      cases refused
      refine ⟨0, gas, Nat.succ_pos units, rfl, ?_⟩
      rw [tick, first]
    | ok =>
      rw [charge_succ_of_ok first] at refused
      obtain ⟨fewer, paid, less, granted, last⟩ := ih refused
      refine ⟨fewer + 1, paid, Nat.succ_lt_succ less, ?_, last⟩
      rw [charge_succ_of_ok first, granted]

/-- A unit that is refused behind those that are granted is the first of all that follow. -/
theorem charge_of_refused_behind {gas paid left : Gas} {fewer units : Nat} {fault : Fault}
    (granted : gas.charge fewer = (.ok (), paid)) (refused : paid.tick = (.error fault, left))
    (less : fewer < units) : gas.charge units = (.error fault, left) := by
  have next : gas.charge (fewer + 1) = (.error fault, left) := by
    rw [charge_add, granted]
    simp only [charge, refused]
  exact charge_of_refused next less

theorem check_of_unlimited {gas : Gas} (unlimited : gas.limit = none) :
    gas.spend.check = .ok () := by
  simp [check, unlimited]

/-- Without a limit every unit is granted. -/
theorem charge_of_unlimited {gas : Gas} (unlimited : gas.limit = none) (units : Nat) :
    gas.charge units = (.ok (), { gas with used := gas.used + .ofNat units }) := by
  rcases charged : gas.charge units with ⟨fault | _, left⟩
  · obtain ⟨limit, limited, _⟩ := charge_fault charged
    cases unlimited.symm.trans limited
  · rw [eq_of_charge_ok charged]

private theorem check_of_limit {gas : Gas} {limit : UInt64} (limited : gas.limit = some limit) :
    gas.spend.check =
      if limit < gas.used + 1 then .error (.stepLimitExceeded limit) else .ok () := by
  simp only [check, spend, limited]

private theorem toNat_add_one {n : UInt64} (fits : n.toNat + 1 < UInt64.size) :
    (n + 1).toNat = n.toNat + 1 := by
  rw [UInt64.toNat_add, UInt64.toNat_one]
  exact Nat.mod_eq_of_lt fits

/-- Units within the limit are granted. -/
theorem charge_of_covered {gas : Gas} {limit : UInt64} {units : Nat}
    (limited : gas.limit = some limit) (covered : gas.used.toNat + units ≤ limit.toNat) :
    gas.charge units = (.ok (), { gas with used := .ofNat (gas.used.toNat + units) }) := by
  have bound := limit.toNat_lt_size
  induction units generalizing gas with
  | zero => simp [charge_zero]
  | succ units ih =>
    have next : (gas.used + 1).toNat = gas.used.toNat + 1 := toNat_add_one (by omega)
    have granted : gas.spend.check = .ok () := by
      rw [check_of_limit limited, if_neg]
      rw [UInt64.lt_iff_toNat_lt, next]
      omega
    rw [charge_succ_of_ok granted, ih (by simpa using limited) (by rw [spend_used, next]; omega)]
    simp only [next, spend]
    rw [Nat.add_assoc, Nat.add_comm 1]

/-- The first unit beyond the limit is counted and refused, as long as the counter can hold it. -/
theorem charge_of_exceeded {gas : Gas} {limit : UInt64} {units : Nat}
    (limited : gas.limit = some limit) (room : max gas.used.toNat limit.toNat + 1 < UInt64.size)
    (some_unit : units ≠ 0) (exceeded : limit.toNat < gas.used.toNat + units) :
    gas.charge units = (.error (.stepLimitExceeded limit),
      { gas with used := .ofNat (max gas.used.toNat limit.toNat + 1) }) := by
  induction units generalizing gas with
  | zero => exact absurd rfl some_unit
  | succ units ih =>
    have next : (gas.used + 1).toNat = gas.used.toNat + 1 := toNat_add_one (by omega)
    by_cases beyond : limit.toNat < gas.used.toNat + 1
    · have refused : gas.spend.check = .error (.stepLimitExceeded limit) := by
        rw [check_of_limit limited, if_pos]
        rw [UInt64.lt_iff_toNat_lt, next]
        exact beyond
      rw [charge_succ_of_error refused, Nat.max_eq_left (by omega), ← next, UInt64.ofNat_toNat]
      rfl
    · have granted : gas.spend.check = .ok () := by
        rw [check_of_limit limited, if_neg]
        rw [UInt64.lt_iff_toNat_lt, next]
        exact beyond
      rw [charge_succ_of_ok granted, ih (by simpa using limited) (by rw [spend_used, next]; omega)
        (by omega) (by rw [spend_used, next]; omega)]
      simp only [next, spend]
      rw [Nat.max_eq_right (by omega), Nat.max_eq_right (by omega)]

/-- A counter with its last value goes on from zero and is granted all that its limit allows again. -/
theorem charge_of_full {gas : Gas} {limit : UInt64} (limited : gas.limit = some limit)
    (full : gas.used.toNat + 1 = UInt64.size) (units : Nat) :
    gas.charge (units + 1) = ({ gas with used := 0 } : Gas).charge units := by
  have wrapped : gas.used + 1 = 0 := by
    rw [← UInt64.toNat_inj, UInt64.toNat_add, UInt64.toNat_one, full]
    rfl
  have granted : gas.spend.check = .ok () := by
    rw [check_of_limit limited, wrapped, if_neg]
    rw [UInt64.lt_iff_toNat_lt]
    exact Nat.not_lt_zero _
  rw [charge_succ_of_ok granted, spend, wrapped]

theorem charge_of_full_covered {gas : Gas} {limit : UInt64} {units : Nat}
    (limited : gas.limit = some limit) (full : gas.used.toNat + 1 = UInt64.size)
    (covered : units ≤ limit.toNat) :
    gas.charge (units + 1) = (.ok (), { gas with used := .ofNat units }) := by
  have restarted : ({ gas with used := 0 } : Gas).limit = some limit := limited
  have within : (0 : UInt64).toNat + units ≤ limit.toNat := by
    rwa [UInt64.toNat_zero, Nat.zero_add]
  rw [charge_of_full limited full, charge_of_covered restarted within, UInt64.toNat_zero,
    Nat.zero_add]

theorem charge_of_full_exceeded {gas : Gas} {limit : UInt64} {units : Nat}
    (limited : gas.limit = some limit) (full : gas.used.toNat + 1 = UInt64.size)
    (room : limit.toNat + 1 < UInt64.size) (exceeded : limit.toNat < units) :
    gas.charge (units + 1) =
      (.error (.stepLimitExceeded limit), { gas with used := .ofNat (limit.toNat + 1) }) := by
  have restarted : ({ gas with used := 0 } : Gas).limit = some limit := limited
  have atZero : max (0 : UInt64).toNat limit.toNat = limit.toNat := by
    rw [UInt64.toNat_zero, Nat.zero_max]
  have beyond : limit.toNat < (0 : UInt64).toNat + units := by
    rwa [UInt64.toNat_zero, Nat.zero_add]
  rw [charge_of_full limited full, charge_of_exceeded restarted (by rwa [atZero])
    (Nat.ne_zero_of_lt exceeded) beyond, atZero]

/-- What a counter grants, it grants also under a larger limit. -/
theorem charge_of_larger {gas : Gas} {limit larger : UInt64} {units : Nat}
    (limited : gas.limit = some limit) (order : limit ≤ larger)
    (granted : (gas.charge units).1 = .ok ()) :
    ({ gas with limit := some larger } : Gas).charge units =
      (.ok (), { (gas.charge units).2 with limit := some larger }) := by
  induction units generalizing gas with
  | zero => rfl
  | succ units ih =>
    cases first : gas.spend.check with
    | error fault => simp [charge_succ_of_error first] at granted
    | ok =>
      have within : ¬ limit < gas.used + 1 := by
        intro beyond
        simp [check_of_limit limited, beyond] at first
      have larger_granted : ({ gas with limit := some larger } : Gas).spend.check = .ok () := by
        rw [check_of_limit rfl, if_neg]
        exact fun beyond => within (UInt64.lt_of_le_of_lt order beyond)
      rw [charge_succ_of_ok first] at granted ⊢
      rw [charge_succ_of_ok larger_granted]
      exact ih (by simpa using limited) granted

/-- With every unit granted, a run comes to its own end. -/
theorem pay_of_ok {α : Type} {gas left : Gas} {units : Nat} (granted : gas.charge units = (.ok (), left))
    (ending : Option (Except Fault α)) : gas.pay units ending = ending.map (·, left) := by
  simp only [pay, granted]

/-- With a unit refused, a run comes to the refusal, whatever its own end is. -/
theorem pay_of_error {α : Type} {gas left : Gas} {units : Nat} {fault : Fault}
    (refused : gas.charge units = (.error fault, left)) (ending : Option (Except Fault α)) :
    gas.pay units ending = some (.error fault, left) := by
  simp only [pay, refused]

/-- A run comes to its own end with every unit granted, or to the exhaustion of the budget. -/
theorem pay_eq_some {α : Type} {gas left : Gas} {units : Nat}
    {ending : Option (Except Fault α)} {result : Except Fault α}
    (paid : gas.pay units ending = some (result, left)) :
    (gas.charge units = (.ok (), left) ∧ ending = some result) ∨
      ∃ limit, gas.limit = some limit ∧ result = .error (.stepLimitExceeded limit) := by
  rcases charged : gas.charge units with ⟨fault | _, rest⟩
  · rw [pay_of_error charged] at paid
    cases paid
    obtain ⟨limit, limited, rfl⟩ := charge_fault charged
    exact .inr ⟨limit, limited, rfl⟩
  · rw [pay_of_ok charged] at paid
    obtain ⟨own, rfl, same⟩ := Option.map_eq_some_iff.mp paid
    cases same
    exact .inl ⟨rfl, rfl⟩

theorem pay_succ_of_error {α : Type} {gas : Gas} {fault : Fault}
    (refused : gas.spend.check = .error fault) (units : Nat) (ending : Option (Except Fault α)) :
    gas.pay (units + 1) ending = some (.error fault, gas.spend) :=
  pay_of_error (charge_succ_of_error refused units) ending

theorem pay_succ_of_ok {α : Type} {gas : Gas} (granted : gas.spend.check = .ok ()) (units : Nat)
    (ending : Option (Except Fault α)) :
    gas.pay (units + 1) ending = gas.spend.pay units ending := by
  simp only [pay, charge_succ_of_ok granted]

end Gas

namespace Metered

variable {α β : Type}

/-- The computation uses `units` of gas and then comes to the given end, as far as gas allows. -/
def Costs (computation : Metered α) (units : Nat) (ending : Option (Except Fault α)) : Prop :=
  ∀ meter, (computation.run meter).map (fun (result, left) => (result, left.gas)) =
    meter.gas.pay units ending

theorem Costs.paid {computation : Metered α} {units : Nat} {ending : Option (Except Fault α)}
    (costs : computation.Costs units ending) {meter left : Meter} {result : Except Fault α}
    (ran : computation.run meter = some (result, left)) :
    meter.gas.pay units ending = some (result, left.gas) := by
  rw [← costs meter, ran, Option.map_some]

theorem Costs.pure (a : α) : (pure a : Metered α).Costs 0 (some (.ok a)) := fun _ => rfl

theorem Costs.lift (result : Except Fault α) : (lift result).Costs 0 (some result) := fun _ => rfl

theorem Costs.starved : (starved : Metered α).Costs 0 none := fun _ => rfl

theorem Costs.report (event : Event) : (report event).Costs 0 (some (.ok ())) := fun _ => rfl

theorem Costs.tick : tick.Costs 1 (some (.ok ())) := by
  intro meter
  rw [run_tick]
  cases granted : meter.gas.spend.check with
  | error fault => rw [Gas.pay_of_error (Gas.charge_succ_of_error granted 0)]; rfl
  | ok => rw [Gas.pay_of_ok (Gas.charge_succ_of_ok granted 0)]; rfl

theorem Costs.run_of_refused {computation : Metered α} {units : Nat}
    {ending : Option (Except Fault α)} {meter : Meter} {gas : Gas} {fault : Fault}
    (costs : computation.Costs units ending)
    (refused : meter.gas.charge units = (.error fault, gas)) :
    ∃ left, computation.run meter = some (.error fault, left) ∧ left.gas = gas := by
  have paid := costs meter
  rw [Gas.pay_of_error refused, Option.map_eq_some_iff] at paid
  obtain ⟨⟨result, left⟩, ran, same⟩ := paid
  cases same
  exact ⟨left, ran, rfl⟩

theorem Costs.run_of_granted {computation : Metered α} {units : Nat} {result : Except Fault α}
    {meter : Meter} {gas : Gas} (costs : computation.Costs units (some result))
    (granted : meter.gas.charge units = (.ok (), gas)) :
    ∃ left, computation.run meter = some (result, left) ∧ left.gas = gas := by
  have paid := costs meter
  rw [Gas.pay_of_ok granted, Option.map_some, Option.map_eq_some_iff] at paid
  obtain ⟨⟨result, left⟩, ran, same⟩ := paid
  cases same
  exact ⟨left, ran, rfl⟩

theorem Costs.run_of_starved {computation : Metered α} {units : Nat} {meter : Meter} {gas : Gas}
    (costs : computation.Costs units none) (granted : meter.gas.charge units = (.ok (), gas)) :
    computation.run meter = none := by
  have paid := costs meter
  rwa [Gas.pay_of_ok granted, Option.map_none, Option.map_eq_none_iff] at paid

/-- A computation and what follows on its value are paid one after the other. -/
theorem Costs.bind {computation : Metered α} {next : α → Metered β} {first second : Nat} {a : α}
    {ending : Option (Except Fault β)} (value : computation.Costs first (some (.ok a)))
    (onward : (next a).Costs second ending) :
    (computation >>= next).Costs (first + second) ending := by
  intro meter
  rw [run_bind, Gas.pay, Gas.charge_add]
  rcases charged : meter.gas.charge first with ⟨fault | _, gas⟩
  · obtain ⟨left, ran, rfl⟩ := value.run_of_refused charged
    rw [ran]
    rfl
  · obtain ⟨left, ran, rfl⟩ := value.run_of_granted charged
    rw [ran]
    exact onward left

/-- Nothing follows on a fault. -/
theorem Costs.bind_fault {computation : Metered α} {units : Nat} {fault : Fault}
    (failed : computation.Costs units (some (.error fault))) (next : α → Metered β) :
    (computation >>= next).Costs units (some (.error fault)) := by
  intro meter
  rw [run_bind, Gas.pay]
  rcases charged : meter.gas.charge units with ⟨other | _, gas⟩
  · obtain ⟨left, ran, rfl⟩ := failed.run_of_refused charged
    rw [ran]
    rfl
  · obtain ⟨left, ran, rfl⟩ := failed.run_of_granted charged
    rw [ran]
    rfl

/-- Nothing follows on a want for fuel. -/
theorem Costs.bind_starved {computation : Metered α} {units : Nat}
    (starves : computation.Costs units none) (next : α → Metered β) :
    (computation >>= next).Costs units none := by
  intro meter
  rw [run_bind, Gas.pay]
  rcases charged : meter.gas.charge units with ⟨fault | _, gas⟩
  · obtain ⟨left, ran, rfl⟩ := starves.run_of_refused charged
    rw [ran]
    rfl
  · rw [starves.run_of_starved charged]
    rfl

theorem Costs.tick_bind {rest : Metered α} {units : Nat} {ending : Option (Except Fault α)}
    (onward : rest.Costs units ending) :
    (Metered.tick >>= fun _ => rest).Costs (units + 1) ending := by
  rw [Nat.add_comm]
  exact Costs.tick.bind onward

theorem Costs.lift_bind {result : Except Fault α} {next : α → Metered β} {a : α} {units : Nat}
    {ending : Option (Except Fault β)} (value : result = .ok a)
    (onward : (next a).Costs units ending) :
    (Metered.lift result >>= next).Costs units ending := by
  subst value
  simpa only [Nat.zero_add] using (Costs.lift (.ok a)).bind onward

theorem Costs.lift_bind_fault {result : Except Fault α} {fault : Fault}
    (failed : result = .error fault) (next : α → Metered β) :
    (Metered.lift result >>= next).Costs 0 (some (.error fault)) := by
  subst failed
  exact (Costs.lift (.error fault)).bind_fault next

theorem Costs.report_bind {event : Event} {rest : Metered α} {units : Nat}
    {ending : Option (Except Fault α)} (onward : rest.Costs units ending) :
    (Metered.report event >>= fun _ => rest).Costs units ending := by
  simpa only [Nat.zero_add] using (Costs.report event).bind onward

/-- The second computation ends as the first wherever the first ends at all. -/
def Below (small large : Metered α) : Prop :=
  ∀ meter ended, small.run meter = some ended → large.run meter = some ended

theorem Below.refl (computation : Metered α) : computation.Below computation :=
  fun _ _ ran => ran

theorem Below.starved (computation : Metered α) : (starved : Metered α).Below computation :=
  fun _ _ ran => nomatch ran

theorem Below.bind {small large : Metered α} {smallNext largeNext : α → Metered β}
    (below : small.Below large) (onward : ∀ a, (smallNext a).Below (largeNext a)) :
    (small >>= smallNext).Below (large >>= largeNext) := by
  intro meter ended ran
  rw [run_bind] at ran ⊢
  cases first : small.run meter with
  | none => simp only [first, reduceCtorEq] at ran
  | some value =>
    rw [below meter value first]
    rw [first] at ran
    obtain ⟨fault | a, left⟩ := value
    · exact ran
    · exact onward a left ended ran

/-- More fuel does not change the bill of a computation that has come to its end. -/
theorem Costs.of_below {small large : Metered α} {units : Nat} {result : Except Fault α}
    (costs : small.Costs units (some result)) (below : small.Below large) :
    large.Costs units (some result) := by
  intro meter
  rcases charged : meter.gas.charge units with ⟨fault | _, gas⟩
  · obtain ⟨left, ran, rfl⟩ := costs.run_of_refused charged
    rw [below _ _ ran, Gas.pay_of_error charged]
    rfl
  · obtain ⟨left, ran, rfl⟩ := costs.run_of_granted charged
    rw [below _ _ ran, Gas.pay_of_ok charged]
    rfl

end Metered

end Concord
