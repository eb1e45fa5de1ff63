import Concord.Proofs.StrategyRun
import Mathlib.Data.ENat.Basic

/-! # What a limit does to a run

Of every run there is a number of ticks: those that it makes when nothing limits it, or infinity for
a run that goes on forever. A limit that covers them changes nothing, and any other limit ends the
run with the first tick that goes over it. So a limit can cut a run short and do nothing else to it.

A counter is a word. At its last value the next tick takes it to zero, where the limit allows all
its ticks again: `full_counter_starts_over`.
-/

namespace Concord.Strategy

variable {strategy : Strategy} {s : Stmt} {env : Environment}

/-- `ticks` is the number of ticks of the run, and decides what gas does to it. -/
structure Threshold (strategy : Strategy) (s : Stmt) (env : Environment) (ticks : ℕ∞) : Prop where
  /-- The ticks have no end when the run that nothing limits has none. -/
  eq_top_iff : ticks = ⊤ ↔ strategy.Diverges s env .unlimited
  /-- The ticks of a run that has an answer are those of its bill: for the machine one for each
  reduction, and one more for a reduction that fails. -/
  bill {result : Result} (answer : strategy.Answers s env result) :
    ∃ units : ℕ, ticks = units ∧ strategy.Bill s env units result
  /-- A counter without a limit is left with the ticks counted, wherever it has started. -/
  unlimited {gas : Gas} {result : Result} (limitless : gas.limit = none)
    (answer : strategy.Answers s env result) :
    ∃ units : ℕ, ticks = units ∧
      strategy.Returns s env gas result { gas with used := gas.used + .ofNat units }
  /-- A run without ticks, or with no more than the limit leaves, comes to its answer. -/
  covered {gas : Gas} {limit : UInt64} (limited : gas.limit = some limit)
    (cover : ticks = 0 ∨ (gas.used.toNat : ℕ∞) + ticks ≤ limit.toNat) :
    ∃ result left, strategy.Answers s env result ∧ strategy.Returns s env gas result left ∧
      left.limit = some limit ∧ (left.used.toNat : ℕ∞) = gas.used.toNat + ticks
  /-- Any other run comes to the exhaustion of the budget, with the refused tick counted, as long as
  the counter has room for the count. -/
  exceeded {gas : Gas} {limit : UInt64} (limited : gas.limit = some limit)
    (room : max gas.used.toNat limit.toNat + 1 < 2 ^ 64)
    (excess : ¬ (ticks = 0 ∨ (gas.used.toNat : ℕ∞) + ticks ≤ limit.toNat)) :
    ∃ left, strategy.Returns s env gas (.error (.stepLimitExceeded limit)) left ∧
      left.limit = some limit ∧ left.used.toNat = max gas.used.toNat limit.toNat + 1
  /-- A counter at its last value is granted a tick and is at zero then, so the rest of the ticks is
  what the limit has to cover. -/
  covered_full {gas : Gas} {limit : UInt64} {rest : ℕ∞} (limited : gas.limit = some limit)
    (full : gas.used.toNat + 1 = 2 ^ 64) (more : ticks = rest + 1) (cover : rest ≤ limit.toNat) :
    ∃ result left, strategy.Answers s env result ∧ strategy.Returns s env gas result left ∧
      left.limit = some limit ∧ (left.used.toNat : ℕ∞) = rest
  exceeded_full {gas : Gas} {limit : UInt64} {rest : ℕ∞} (limited : gas.limit = some limit)
    (full : gas.used.toNat + 1 = 2 ^ 64) (more : ticks = rest + 1)
    (room : limit.toNat + 1 < 2 ^ 64) (excess : limit.toNat < rest) :
    ∃ left, strategy.Returns s env gas (.error (.stepLimitExceeded limit)) left ∧
      left.limit = some limit ∧ left.used.toNat = limit.toNat + 1

/-- The first tick beyond the limit is refused, of a run with a bill as of one without. -/
private theorem pay_of_exceeded {gas : Gas} {limit : UInt64} {units : Nat}
    (limited : gas.limit = some limit) (room : max gas.used.toNat limit.toNat + 1 < 2 ^ 64)
    (some_unit : units ≠ 0) (excess : limit.toNat < gas.used.toNat + units)
    (ending : Option Result) :
    ∃ left, gas.pay units ending = some (.error (.stepLimitExceeded limit), left) ∧
      left.limit = some limit ∧ left.used.toNat = max gas.used.toNat limit.toNat + 1 := by
  refine ⟨_, Gas.pay_of_error (Gas.charge_of_exceeded limited room some_unit excess) ending,
    limited, ?_⟩
  exact UInt64.toNat_ofNat_of_lt' room

private theorem exists_eq_add_one {units : ℕ} {rest : ℕ∞} (more : (units : ℕ∞) = rest + 1) :
    ∃ others : ℕ, rest = others ∧ units = others + 1 := by
  cases rest with
  | top => exact absurd more (ENat.natCast_ne_top units)
  | coe others => exact ⟨others, rfl, by exact_mod_cast more⟩

/-- The ticks of a run with a bill are the units of the bill. -/
theorem Bill.threshold {units : Nat} {result : Result} (bill : strategy.Bill s env units result) :
    strategy.Threshold s env units where
  eq_top_iff := by
    have answer := answers_iff_bill.mpr ⟨units, bill⟩
    rw [diverges_unlimited_iff]
    exact ⟨fun infinite => absurd infinite (ENat.natCast_ne_top units),
      fun never => absurd answer (never result)⟩
  bill := by
    intro other answer
    obtain rfl := (answers_iff_bill.mpr ⟨units, bill⟩).unique answer
    exact ⟨units, rfl, bill⟩
  unlimited := by
    intro gas other limitless answer
    obtain rfl := (answers_iff_bill.mpr ⟨units, bill⟩).unique answer
    exact ⟨units, rfl, bill.returns_iff.mpr
      (Gas.pay_of_ok (Gas.charge_of_unlimited limitless units) _)⟩
  covered := by
    intro gas limit limited cover
    have answer := answers_iff_bill.mpr ⟨units, bill⟩
    obtain none_needed | within := cover
    · obtain rfl : units = 0 := by exact_mod_cast none_needed
      exact ⟨result, gas, answer, bill.returns_iff.mpr rfl, limited, by simp⟩
    · have within : gas.used.toNat + units ≤ limit.toNat := by exact_mod_cast within
      have bound := limit.toNat_lt_size
      refine ⟨result, _, answer, bill.returns_iff.mpr
        (Gas.pay_of_ok (Gas.charge_of_covered limited within) _), limited, ?_⟩
      rw [UInt64.toNat_ofNat_of_lt' (by omega)]
      exact Nat.cast_add _ _
  exceeded := by
    intro gas limit limited room excess
    obtain ⟨some_unit, beyond⟩ := not_or.mp excess
    have some_unit : units ≠ 0 := by exact_mod_cast some_unit
    have beyond : limit.toNat < gas.used.toNat + units := by exact_mod_cast not_le.mp beyond
    obtain ⟨left, paid, stays, count⟩ :=
      pay_of_exceeded limited room some_unit beyond (some result)
    exact ⟨left, bill.returns_iff.mpr paid, stays, count⟩
  covered_full := by
    intro gas limit rest limited full more cover
    obtain ⟨others, rfl, rfl⟩ := exists_eq_add_one more
    have within : others ≤ limit.toNat := by exact_mod_cast cover
    refine ⟨result, _, answers_iff_bill.mpr ⟨_, bill⟩, bill.returns_iff.mpr
      (Gas.pay_of_ok (Gas.charge_of_full_covered limited full within) _), limited, ?_⟩
    rw [UInt64.toNat_ofNat_of_lt' (within.trans_lt limit.toNat_lt_size)]
  exceeded_full := by
    intro gas limit rest limited full more room excess
    obtain ⟨others, rfl, rfl⟩ := exists_eq_add_one more
    have beyond : limit.toNat < others := by exact_mod_cast excess
    have refused := Gas.charge_of_full_exceeded limited full room beyond
    exact ⟨_, bill.returns_iff.mpr (Gas.pay_of_error refused _), limited,
      UInt64.toNat_ofNat_of_lt' room⟩

/-- The ticks of a run that goes on forever have no end. -/
theorem Starves.threshold (starves : strategy.Starves s env) : strategy.Threshold s env ⊤ := by
  have forever := starves.diverges_unlimited
  have never := diverges_unlimited_iff.mp forever
  refine ⟨iff_of_true rfl forever, fun answer => absurd answer (never _),
    fun _ answer => absurd answer (never _), ?_, ?_, ?_, ?_⟩
  · intro gas limit limited cover
    simp at cover
  · intro gas limit limited room _
    have refused := Gas.charge_of_exceeded limited room (Nat.succ_ne_zero limit.toNat) (by omega)
    exact ⟨_, starves.returns refused, limited, UInt64.toNat_ofNat_of_lt' room⟩
  · intro gas limit rest limited full more cover
    obtain rfl : rest = ⊤ := by simpa using more.symm
    simp at cover
  · intro gas limit rest limited full _ room _
    have refused := Gas.charge_of_full_exceeded limited full room (Nat.lt_succ_self limit.toNat)
    exact ⟨_, starves.returns refused, limited, UInt64.toNat_ofNat_of_lt' room⟩

theorem exists_threshold (strategy : Strategy) (s : Stmt) (env : Environment) :
    ∃ ticks, strategy.Threshold s env ticks := by
  obtain ⟨units, _, bill⟩ | starves := bill_or_starves strategy s env
  · exact ⟨units, bill.threshold⟩
  · exact ⟨⊤, starves.threshold⟩

theorem Threshold.unique {ticks other : ℕ∞} (threshold : strategy.Threshold s env ticks)
    (again : strategy.Threshold s env other) : ticks = other := by
  by_cases forever : strategy.Diverges s env .unlimited
  · rw [threshold.eq_top_iff.mpr forever, again.eq_top_iff.mpr forever]
  · rw [diverges_unlimited_iff] at forever
    push Not at forever
    obtain ⟨result, answer⟩ := forever
    obtain ⟨units, rfl, bill⟩ := threshold.bill answer
    obtain ⟨otherUnits, rfl, otherBill⟩ := again.bill answer
    rw [(bill.unique otherBill).1]

/-- Fuel that outlasts the limit brings every run to an end, as long as the counter can hold the
limit and one more. -/
theorem exists_run?_of_limit (strategy : Strategy) (s : Stmt) (env : Environment) {gas : Gas}
    {limit : UInt64} (limited : gas.limit = some limit)
    (room : max gas.used.toNat limit.toNat + 1 < 2 ^ 64) {fuel : ℕ} (enough : limit.toNat < fuel) :
    ∃ ended, strategy.run? fuel s env gas = some ended := by
  obtain ⟨units, result, _, pays⟩ | ⟨units, more, pays⟩ := run?_pays strategy fuel s env
  · rcases charged : gas.charge units with ⟨fault | _, left⟩
    · exact ⟨_, (pays gas).trans (Gas.pay_of_error charged _)⟩
    · exact ⟨_, (pays gas).trans (Gas.pay_of_ok charged _)⟩
  · have refused :=
      Gas.charge_of_exceeded limited room (by omega : units ≠ 0) (by omega)
    exact ⟨_, (pays gas).trans (Gas.pay_of_error refused none)⟩

theorem exists_returns_of_limit (strategy : Strategy) (s : Stmt) (env : Environment) {gas : Gas}
    {limit : UInt64} (limited : gas.limit = some limit)
    (room : max gas.used.toNat limit.toNat + 1 < 2 ^ 64) :
    ∃ result left, strategy.Returns s env gas result left := by
  have enough : limit.toNat < limit.toNat + 1 := Nat.lt_succ_self _
  obtain ⟨⟨result, left⟩, ran⟩ := exists_run?_of_limit strategy s env limited room enough
  exact ⟨result, left, _, ran⟩

/-- A result within one limit is the result within any larger one. -/
theorem Returns.of_larger {gas left : Gas} {limit larger : UInt64} {result : Result}
    (returned : strategy.Returns s env gas result left) (limited : gas.limit = some limit)
    (order : limit ≤ larger) (settled : isExhausted result = false) :
    strategy.Returns s env { gas with limit := some larger } result
      { left with limit := some larger } := by
  obtain ⟨fuel, ran⟩ := returned
  obtain ⟨units, ending, pays, _⟩ := run?_eq_pay strategy fuel s env
  refine ⟨fuel, ?_⟩
  rw [pays] at ran ⊢
  obtain ⟨granted, rfl⟩ | ⟨_, _, rfl⟩ := Gas.pay_eq_some ran
  · have grantedToo := Gas.charge_of_larger limited order (congrArg Prod.fst granted)
    rw [Gas.pay_of_ok grantedToo, granted]
    rfl
  · cases settled

/-- A run has one number of ticks, and this number decides what gas does to the run: it comes to its
answer and leaves the ticks counted, or it comes to the exhaustion of the budget. A counter at its
last value first goes on from zero. A limit has no other effect on the result, and a larger limit
gives every result that a smaller one does. -/
theorem budget_threshold (strategy : Strategy) (s : Stmt) (env : Environment) :
    (∃! ticks, strategy.Threshold s env ticks) ∧
      (∀ gas result left, strategy.Returns s env gas result left →
        strategy.Answers s env result ∨
          ∃ limit, gas.limit = some limit ∧ result = .error (.stepLimitExceeded limit)) ∧
      ∀ gas limit larger result left, gas.limit = some limit → limit ≤ larger →
        strategy.Returns s env gas result left → isExhausted result = false →
          strategy.Returns s env { gas with limit := some larger } result
            { left with limit := some larger } := by
  refine ⟨?_, fun _ _ _ returned => returned.answers_or_exhausted,
    fun _ _ _ _ _ limited order returned settled => returned.of_larger limited order settled⟩
  obtain ⟨ticks, threshold⟩ := exists_threshold strategy s env
  exact ⟨ticks, threshold, fun other again => again.unique threshold⟩

/-- With a counter that is past its limit, the machine has nothing to pay for `do-nothing`, and
evaluation is refused the one unit for it, but not with a counter at its last value. A limit of one
is enough, and so is a limit of nine. -/
theorem budget_threshold_skip :
    (∃ left, smallStep.Returns .skip .empty { used := 7, limit := some 5 } (.ok .empty) left ∧
      left.used.toNat = 7) ∧
    (∃ left, bigStep.Returns .skip .empty { used := 7, limit := some 5 }
      (.error (.stepLimitExceeded 5)) left ∧ left.used.toNat = 8) ∧
    (∃ left, bigStep.Returns .skip .empty { used := 18446744073709551615, limit := some 5 }
      (.ok .empty) left ∧ left.used.toNat = 0) ∧
    bigStep.Returns .skip .empty (.limited 9) (.ok .empty) { used := 1, limit := some 9 } := by
  have nothing : smallStep.Bill .skip .empty 0 (.ok .empty) :=
    ⟨0, Rewriting.ends_zero_iff.mpr rfl, rfl⟩
  have one : bigStep.Bill .skip .empty 1 (.ok .empty) := ⟨rfl, rfl⟩
  have limited : ({ used := 7, limit := some 5 } : Gas).limit = some 5 := rfl
  have limitedToo : ({ used := 18446744073709551615, limit := some 5 } : Gas).limit = some 5 := rfl
  refine ⟨?_, ?_, ?_, ?_⟩
  · obtain ⟨⟨ticks, threshold, _⟩, _⟩ := budget_threshold smallStep .skip .empty
    have answer := answers_iff_bill.mpr ⟨0, nothing⟩
    obtain ⟨units, rfl, bill⟩ := threshold.bill answer
    obtain ⟨rfl, _⟩ := bill.unique nothing
    obtain ⟨result, left, own, returned, _, count⟩ := threshold.covered limited (.inl rfl)
    obtain rfl := own.unique answer
    exact ⟨left, returned, by exact_mod_cast count⟩
  · obtain ⟨⟨ticks, threshold, _⟩, _⟩ := budget_threshold bigStep .skip .empty
    obtain ⟨units, rfl, bill⟩ := threshold.bill (answers_iff_bill.mpr ⟨1, one⟩)
    obtain ⟨rfl, _⟩ := bill.unique one
    obtain ⟨left, returned, _, count⟩ := threshold.exceeded limited (by decide) (by decide)
    exact ⟨left, returned, count⟩
  · obtain ⟨⟨ticks, threshold, _⟩, _⟩ := budget_threshold bigStep .skip .empty
    have answer := answers_iff_bill.mpr ⟨1, one⟩
    obtain ⟨units, rfl, bill⟩ := threshold.bill answer
    obtain ⟨rfl, _⟩ := bill.unique one
    obtain ⟨result, left, own, returned, _, count⟩ :=
      threshold.covered_full limitedToo (by decide) (zero_add 1).symm zero_le
    obtain rfl := own.unique answer
    exact ⟨left, returned, by exact_mod_cast count⟩
  · obtain ⟨_, _, larger⟩ := budget_threshold bigStep .skip .empty
    have within : bigStep.Returns .skip .empty (.limited 1) (.ok .empty)
        { used := 1, limit := some 1 } := one.returns_iff.mpr rfl
    exact larger _ 1 9 _ _ rfl (by decide) within rfl

/-- A limit of five ends no run that a counter at its last value pays for with its next tick. It
leaves the counter at zero, and so neither with the ticks counted nor past the limit. -/
theorem full_counter_starts_over :
    ¬ ∀ (strategy : Strategy) (s : Stmt) (env : Environment), ∃ ticks : ℕ∞,
      ∀ (gas : Gas) (limit : UInt64), gas.limit = some limit → limit.toNat < 2 ^ 64 - 1 →
        ((ticks = 0 ∨ (gas.used.toNat : ℕ∞) + ticks ≤ limit.toNat) →
          ∃ result left, strategy.Answers s env result ∧ strategy.Returns s env gas result left ∧
            (left.used.toNat : ℕ∞) = gas.used.toNat + ticks) ∧
        (¬ (ticks = 0 ∨ (gas.used.toNat : ℕ∞) + ticks ≤ limit.toNat) →
          ∃ left, strategy.Returns s env gas (.error (.stepLimitExceeded limit)) left ∧
            left.used.toNat = max gas.used.toNat limit.toNat + 1) := by
  intro law
  let program : Stmt := .assign "x" (.literal (.boolean true))
  let full : Gas := { used := 18446744073709551615, limit := some 5 }
  have bill : smallStep.Bill program .empty 1 (.ok (Environment.empty.insert "x" (.boolean true))) :=
    ⟨1, Rewriting.ends_succ_iff.mpr ⟨_, rfl, Rewriting.ends_zero_iff.mpr rfl⟩, rfl⟩
  have returned : smallStep.Returns program .empty full
      (.ok (Environment.empty.insert "x" (.boolean true))) { used := 0, limit := some 5 } :=
    bill.returns_iff.mpr
      (Gas.pay_of_ok (Gas.charge_of_full_covered rfl (by decide) (Nat.zero_le _)) _)
  obtain ⟨ticks, decides⟩ := law smallStep program .empty
  obtain ⟨covered, exceeded⟩ := decides full 5 rfl (by decide)
  by_cases cover : ticks = 0 ∨ (full.used.toNat : ℕ∞) + ticks ≤ (5 : UInt64).toNat
  · obtain ⟨_, _, _, again, count⟩ := covered cover
    obtain ⟨_, rfl⟩ := again.unique returned
    have used : full.used.toNat = 0 := by exact_mod_cast (add_eq_zero.mp count.symm).1
    exact absurd used (by decide)
  · obtain ⟨_, again, _⟩ := exceeded cover
    obtain ⟨same, _⟩ := again.unique returned
    cases same

end Concord.Strategy
