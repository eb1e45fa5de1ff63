import Concord.Proofs.Emission
import Concord.Proofs.Session

/-! # Counters past their limit

A counter that is past its limit refuses the next tick, and whoever has asked for it is done: a step
of a machine or its run, evaluation, or the application of a meaning. So each further use of the
counter is one more refused tick, for as long as the counter's word holds the count. The word starts
over behind its last value, and there the limit grants ticks again.
-/

namespace Concord

/-- Evaluation begins with a tick. -/
theorem Stmt.exists_eval_eq_tick_bind (fuel : Nat) (s : Stmt) (env : Environment) :
    ∃ rest, s.eval fuel env = Metered.tick >>= rest := by
  cases s with
  | assign name value => exact ⟨_, eval_assign fuel name value env⟩
  | skip => exact ⟨_, eval_skip fuel env⟩
  | ifThenElse condition consequence alternative =>
    exact ⟨_, eval_ifThenElse fuel condition consequence alternative env⟩
  | seq first second => exact ⟨_, eval_seq fuel first second env⟩
  | whileDo condition body => exact ⟨_, eval_whileDo fuel condition body env⟩

namespace Gas

/-- The counter after so many ticks, those that are refused included. -/
def afterTicks : Nat → Gas → Gas
  | 0, gas => gas
  | ticks + 1, gas => afterTicks ticks gas.tick.2

variable {gas later : Gas} {limit : UInt64}

theorem afterTicks_eq (gas : Gas) (ticks : Nat) :
    gas.afterTicks ticks = { gas with used := gas.used + .ofNat ticks } := by
  induction ticks generalizing gas with
  | zero => simp [afterTicks]
  | succ ticks ih =>
    rw [afterTicks, ih]
    simp [tick, spend, UInt64.ofNat_add, UInt64.add_assoc, UInt64.add_comm 1]

/-- Under a limit, what the word holds after a tick decides whether the tick is refused. -/
theorem tick_eq_of_limit (limited : gas.limit = some limit) :
    gas.tick.1 = if limit.toNat < (gas.used.toNat + 1) % 2 ^ 64 then
      .error (.stepLimitExceeded limit) else .ok () := by
  have count : (gas.used + 1).toNat = (gas.used.toNat + 1) % 2 ^ 64 := by
    rw [UInt64.toNat_add, UInt64.toNat_one]
  simp only [tick, check, spend_limit, limited, spend_used, UInt64.lt_iff_toNat_lt, count]

theorem tick_afterTicks (limited : gas.limit = some limit) (ticks : Nat) :
    (gas.afterTicks ticks).tick.1 =
      if limit.toNat < (gas.used.toNat + ticks + 1) % 2 ^ 64 then
        .error (.stepLimitExceeded limit)
      else .ok () := by
  have count : ((gas.afterTicks ticks).used.toNat + 1) % 2 ^ 64 =
      (gas.used.toNat + ticks + 1) % 2 ^ 64 := by
    simp [afterTicks_eq]
  have stays : (gas.afterTicks ticks).limit = some limit := by rw [afterTicks_eq, limited]
  rw [tick_eq_of_limit stays, count]

/-- The counter is past its limit, and its word has room for so many ticks more. -/
structure Past (gas : Gas) (limit : UInt64) (room : Nat) : Prop where
  limited : gas.limit = some limit
  exceeded : limit.toNat < gas.used.toNat
  counted : gas.used.toNat + room < 2 ^ 64

namespace Past

variable {room : Nat}

/-- The next tick is refused. -/
theorem refuses (past : Past gas limit (room + 1)) :
    gas.spend.check = .error (.stepLimitExceeded limit) := by
  have counted := past.counted
  have exceeded := past.exceeded
  have next := tick_eq_of_limit past.limited
  rwa [Nat.mod_eq_of_lt (by omega), if_pos (by omega)] at next

/-- And it leaves the counter past its limit. -/
theorem spend (past : Past gas limit (room + 1)) : Past gas.spend limit room := by
  have counted := past.counted
  have count : gas.spend.used.toNat = gas.used.toNat + 1 := by
    rw [spend_used, UInt64.toNat_add, UInt64.toNat_one, Nat.mod_eq_of_lt (by omega)]
  refine ⟨past.limited, ?_, ?_⟩
  · rw [count]
    exact Nat.lt_succ_of_lt past.exceeded
  · rw [count]
    omega

end Past

/-- One use of a counter: how it ends, and the counter that it leaves. -/
inductive Use : Gas → Except Fault Unit → Gas → Prop where
  | tick (gas : Gas) : Use gas gas.tick.1 gas.tick.2
  | step (machine : Machine) : Use machine.gas machine.step.1 machine.step.2.gas
  /-- A machine is run that has something to reduce. -/
  | run {fuel : Nat} {machine left : Machine} {trace after : Trace} {result : Result}
      (unfinished : machine.statement.isReducible = true)
      (ran : machine.run fuel trace = some (result, left, after)) :
      Use machine.gas (result.map fun _ => ()) left.gas
  | evaluation {fuel : Nat} {s : Stmt} {env : Environment} {meter left : Meter} {result : Result}
      (ran : (s.eval fuel env).run meter = some (result, left)) :
      Use meter.gas (result.map fun _ => ()) left.gas
  | meaning {fuel : Nat} {s : Stmt} {env : Environment} {meter left : Meter} {result : Result}
      (ran : (s.meaning.apply fuel env).run meter = some (result, left)) :
      Use meter.gas (result.map fun _ => ()) left.gas

/-- Uses of one counter in turn, and how each of them ends. -/
inductive Uses : Gas → List (Except Fault Unit) → Gas → Prop where
  | nil (gas : Gas) : Uses gas [] gas
  | cons {gas middle later : Gas} {ending : Except Fault Unit} {endings : List (Except Fault Unit)}
      (use : Use gas ending middle) (onward : Uses middle endings later) :
      Uses gas (ending :: endings) later

private theorem eval_of_refused {fault : Fault} {fuel : Nat} {s : Stmt} {env : Environment}
    {meter left : Meter} {result : Result} (refused : meter.gas.spend.check = .error fault)
    (ran : (s.eval fuel env).run meter = some (result, left)) :
    result = .error fault ∧ left.gas = meter.gas.spend := by
  obtain ⟨rest, begins⟩ := s.exists_eval_eq_tick_bind fuel env
  rw [begins] at ran
  obtain ⟨_, again, rfl, rfl⟩ | ⟨granted, _⟩ := Metered.run_tick_bind_eq_some ran
  · cases refused.symm.trans again
    exact ⟨rfl, rfl⟩
  · cases refused.symm.trans granted

/-- A use whose first tick is refused is this tick and no more. -/
theorem Use.of_refused {fault : Fault} {ending : Except Fault Unit} (use : Use gas ending later)
    (refused : gas.spend.check = .error fault) : ending = .error fault ∧ later = gas.spend := by
  cases use with
  | tick => exact ⟨refused, rfl⟩
  | step machine =>
    rw [Machine.step_of_refused refused]
    exact ⟨rfl, rfl⟩
  | @run fuel _ _ _ _ _ unfinished ran =>
    cases fuel with
    | zero => cases ran
    | succ fuel =>
      have stopped := Machine.step_of_refused refused
      rw [Machine.run, Machine.finish_of_error unfinished stopped] at ran
      cases ran
      exact ⟨rfl, rfl⟩
  | evaluation ran =>
    obtain ⟨rfl, left⟩ := eval_of_refused refused ran
    exact ⟨rfl, left⟩
  | meaning ran =>
    obtain ⟨after, evaluated, same⟩ := Stmt.exists_eval_of_meaning ran
    obtain ⟨rfl, left⟩ := eval_of_refused refused evaluated
    exact ⟨rfl, same ▸ left⟩

/-- Past the limit each use is one refused tick, as long as there is room to count it. -/
theorem Uses.of_past {endings : List (Except Fault Unit)} (uses : Uses gas endings later)
    (past : Past gas limit endings.length) :
    (∀ ending ∈ endings, ending = .error (.stepLimitExceeded limit)) ∧
      later = gas.afterTicks endings.length := by
  induction uses with
  | nil => exact ⟨nofun, rfl⟩
  | cons use _ ih =>
    obtain ⟨rfl, rfl⟩ := use.of_refused past.refuses
    obtain ⟨refused, rfl⟩ := ih past.spend
    exact ⟨List.forall_mem_cons.mpr ⟨rfl, refused⟩, rfl⟩

/-- Counting units leaves the limit as it is. -/
theorem limit_of_charge {units : Nat} {result : Except Fault Unit}
    (charged : gas.charge units = (result, later)) : later.limit = gas.limit := by
  cases result with
  | ok => rw [eq_of_charge_ok charged]
  | error fault =>
    obtain ⟨_, paid, _, granted, refused⟩ := exists_refused_of_charge charged
    have last : paid.spend = later := congrArg Prod.snd refused
    rw [← last, spend_limit, eq_of_charge_ok granted]

theorem limit_of_pay {α : Type} {units : Nat} {ending : Option (Except Fault α)}
    {result : Except Fault α} (paid : gas.pay units ending = some (result, later)) :
    later.limit = gas.limit := by
  rcases charged : gas.charge units with ⟨fault | _, left⟩
  · rw [pay_of_error charged] at paid
    cases paid
    exact limit_of_charge charged
  · rw [pay_of_ok charged] at paid
    obtain ⟨_, _, same⟩ := Option.map_eq_some_iff.mp paid
    cases same
    exact limit_of_charge charged

private theorem limit_of_eval {fuel : Nat} {s : Stmt} {env : Environment} {meter left : Meter}
    {result : Result} (ran : (s.eval fuel env).run meter = some (result, left)) :
    left.gas.limit = meter.gas.limit := by
  obtain ⟨_, _, _, paid⟩ := Stmt.exists_pay_of_eval ran
  exact limit_of_pay paid

/-- No use changes the limit. -/
theorem Use.limit_eq {ending : Except Fault Unit} (use : Use gas ending later) :
    later.limit = gas.limit := by
  cases use with
  | tick => rfl
  | step machine =>
    rcases stepped : machine.step with ⟨result, next⟩
    obtain ⟨_, _, _, uses⟩ := Machine.progress_of_step stepped
    rw [uses]
  | run _ ran =>
    obtain ⟨reductions, last, _, _, uses, stops⟩ := Machine.progress_of_finish ran
    rw [uses.trans stops.progress.2]
  | evaluation ran => exact limit_of_eval ran
  | meaning ran =>
    obtain ⟨after, evaluated, same⟩ := Stmt.exists_eval_of_meaning ran
    rw [← same]
    exact limit_of_eval evaluated

theorem Uses.limit_eq {endings : List (Except Fault Unit)} (uses : Uses gas endings later) :
    later.limit = gas.limit := by
  induction uses with
  | nil => rfl
  | cons use _ ih => rw [ih, use.limit_eq]

/-- A fresh counter refuses its tick number `n` when `n` is more than the limit, as long as a word
holds `n`; what decides beyond that is what the word then holds. A counter past its limit refuses
everything that it is used for, and is left past its limit, as long as a word holds the count. And
without a limit no tick is ever refused. -/
theorem refused_while_counted (limit : UInt64) :
    (∀ n, 1 ≤ n → ((limited limit).afterTicks (n - 1)).tick.1 =
      if limit.toNat < n % 2 ^ 64 then .error (.stepLimitExceeded limit) else .ok ()) ∧
    (∀ n, 1 ≤ n → n < 2 ^ 64 →
      (((limited limit).afterTicks (n - 1)).tick.1 = .error (.stepLimitExceeded limit) ↔
        limit.toNat < n)) ∧
    (∀ gas endings later, gas.limit = some limit → limit.toNat < gas.used.toNat →
      gas.used.toNat + endings.length < 2 ^ 64 → Uses gas endings later →
        (∀ ending ∈ endings, ending = .error (.stepLimitExceeded limit)) ∧
          later = gas.afterTicks endings.length) ∧
    ∀ gas endings later, gas.limit = none → Uses gas endings later → later.tick.1 = .ok () := by
  have nth (n : Nat) (positive : 1 ≤ n) : ((limited limit).afterTicks (n - 1)).tick.1 =
      if limit.toNat < n % 2 ^ 64 then .error (.stepLimitExceeded limit) else .ok () := by
    have number : (limited limit).used.toNat + (n - 1) + 1 = n := by
      change 0 + (n - 1) + 1 = n
      omega
    rw [tick_afterTicks rfl, number]
  refine ⟨nth, ?_, ?_, ?_⟩
  · intro n positive counted
    rw [nth n positive, Nat.mod_eq_of_lt counted]
    by_cases beyond : limit.toNat < n <;> simp [beyond]
  · intro gas endings later limited exceeded counted uses
    exact uses.of_past ⟨limited, exceeded, counted⟩
  · intro gas endings later unlimited uses
    exact check_of_unlimited (uses.limit_eq.trans unlimited)

/-- The tick behind the last value of the word is granted, although it is tick number `2 ^ 64` of a
counter that allows five. -/
theorem full_counter_grants :
    ¬ ∀ (limit : UInt64) (n : Nat), 1 ≤ n →
      (((limited limit).afterTicks (n - 1)).tick.1 = .error (.stepLimitExceeded limit) ↔
        limit.toNat < n) := by
  intro law
  have refused := (law 5 (2 ^ 64) (by decide)).mpr (by decide)
  have fresh : (limited 5).used.toNat = 0 := rfl
  rw [tick_afterTicks rfl, fresh] at refused
  simp at refused

/-- Past a limit of two, evaluation of `do-nothing` is refused, and after it a step of a machine. -/
theorem refused_while_counted_in_turn :
    ((limited 2).afterTicks 2).tick.1 = .error (.stepLimitExceeded 2) ∧
    ∃ evaluated stepped later,
      Uses ((limited 2).afterTicks 3) [evaluated, stepped] later ∧
      evaluated = .error (.stepLimitExceeded 2) ∧ stepped = .error (.stepLimitExceeded 2) ∧
      later = { used := 5, limit := some 2 } := by
  obtain ⟨_, nth, past, _⟩ := refused_while_counted 2
  refine ⟨(nth 3 (by decide) (by decide)).mpr (by decide), ?_⟩
  let meter : Meter := { gas := (limited 2).afterTicks 3 }
  let machine : Machine :=
    { statement := .skip, environment := .empty, gas := (limited 2).afterTicks 4 }
  have ran : (Stmt.skip.eval 0 .empty).run meter =
      some (.error (.stepLimitExceeded 2), { gas := machine.gas }) := by
    rw [Stmt.eval_skip]
    rfl
  have uses : Uses ((limited 2).afterTicks 3) [_, machine.step.1] machine.step.2.gas :=
    .cons (.evaluation ran) (.cons (.step machine) (.nil _))
  obtain ⟨refused, left⟩ := past _ _ _ rfl (by decide) (by decide) uses
  obtain ⟨evaluated, refused⟩ := List.forall_mem_cons.mp refused
  obtain ⟨stepped, _⟩ := List.forall_mem_cons.mp refused
  exact ⟨_, _, _, uses, evaluated, stepped, left⟩

end Gas

end Concord
