import Concord.Proofs.StrategyRun
import Mathlib.Data.List.Infix

/-! # What units of gas are used for

Evaluation and meaning do not recurse on a block: the one walks along its right spine in place, the
other goes through a flat list of steps. Both come to what plain recursion comes to, which uses one
unit for a sequence, runs its first part, and then its second. `Stmt.itemize` is plain recursion on
all of a program. It knows no gas, and keeps a list of the statements and iterations that it
executes. Every item on the list costs one unit, in the order of the list, and nothing else costs
any: so it is with every gas, also when the gas runs out in the middle of a block.
-/

namespace Concord

/-- What a unit of gas is used for. -/
inductive Item where
  /-- A statement is executed in the environment. -/
  | statement (s : Stmt) (env : Environment)
  /-- A loop makes an iteration from the environment. -/
  | iteration (condition : Expr) (body : Stmt) (env : Environment)
deriving DecidableEq

/-- A computation without gas: what it executes, in order, and how it ends. The end is `none` for
want of fuel. -/
structure Itemized (α : Type) where
  items : List Item
  ending : Option (Except Fault α)

namespace Itemized

variable {α : Type}

instance : Monad Itemized where
  pure a := { items := [], ending := some (.ok a) }
  bind computation next :=
    match computation.ending with
    | none => { items := computation.items, ending := none }
    | some (.error fault) => { items := computation.items, ending := some (.error fault) }
    | some (.ok a) =>
      { items := computation.items ++ (next a).items, ending := (next a).ending }

def starved : Itemized α := { items := [], ending := none }

def lift (result : Except Fault α) : Itemized α := { items := [], ending := some result }

def execute (item : Item) : Itemized Unit := { items := [item], ending := some (.ok ()) }

end Itemized

namespace Stmt

/-- Goes around a loop, of which `once` is a single iteration. -/
def itemizeLoop (condition : Expr) (body : Stmt) (once : Environment → Itemized Environment) :
    ℕ → Environment → Itemized Environment
  | 0, _ => .starved
  | fuel + 1, env => do
    if ← .lift (condition.holds env) then
      Itemized.execute (.iteration condition body env)
      let env ← once env
      itemizeLoop condition body once fuel env
    else
      return env

/-- Executes a statement by plain recursion. -/
def itemize (fuel : ℕ) (s : Stmt) (env : Environment) : Itemized Environment := do
  Itemized.execute (.statement s env)
  match s with
  | assign name value => return env.insert name (← .lift (value.eval env))
  | skip => return env
  | ifThenElse condition consequence alternative =>
    if ← .lift (condition.holds env) then
      consequence.itemize fuel env
    else
      alternative.itemize fuel env
  | seq first second =>
    let env ← first.itemize fuel env
    second.itemize fuel env
  | whileDo condition body => itemizeLoop condition body (body.itemize fuel) fuel env

end Stmt

namespace Metered

variable {α β : Type}

/-- The computation uses one unit for each item, and ends alike. -/
def Follows (computation : Metered α) (plain : Itemized α) : Prop :=
  computation.Costs plain.items.length plain.ending

namespace Follows

theorem pure (a : α) : (pure a : Metered α).Follows (pure a) := Costs.pure a

theorem lift (result : Except Fault α) : (lift result).Follows (.lift result) := Costs.lift result

theorem starved : (starved : Metered α).Follows .starved := Costs.starved

theorem tick (item : Item) : Metered.tick.Follows (.execute item) := Costs.tick

/-- Items that are executed one after the other are paid one after the other. -/
theorem bind {computation : Metered α} {plain : Itemized α} {next : α → Metered β}
    {plainNext : α → Itemized β} (follows : computation.Follows plain)
    (onward : ∀ a, (next a).Follows (plainNext a)) :
    (computation >>= next).Follows (plain >>= plainNext) := by
  obtain ⟨items, ending⟩ := plain
  rcases ending with _ | fault | a
  · exact follows.bind_starved next
  · exact follows.bind_fault next
  · have costs := Costs.bind follows (onward a)
    rwa [← List.length_append] at costs

/-- Nothing is paid for a report. -/
theorem report_bind {event : Event} {rest : Metered α} {plain : Itemized α}
    (follows : rest.Follows plain) : (report event >>= fun _ => rest).Follows plain :=
  Costs.report_bind follows

end Follows

end Metered

namespace Stmt

open Metered (Follows)

/-- A loop follows plain recursion when its body does. -/
theorem evalLoop_follows {condition : Expr} {body : Stmt} {run : Environment → Metered Environment}
    {once : Environment → Itemized Environment} (follows : ∀ env, (run env).Follows (once env))
    (fuel : ℕ) (env : Environment) (count : UInt64) :
    (evalLoop condition run fuel env count).Follows
      (itemizeLoop condition body once fuel env) := by
  induction fuel generalizing env count with
  | zero => exact .starved
  | succ fuel ih =>
    rw [evalLoop, itemizeLoop]
    refine .bind (.lift _) fun truth => ?_
    cases truth with
    | true =>
      refine .bind (.tick _) fun _ => .bind (follows env) fun next => .report_bind ?_
      exact ih next (count + 1)
    | false => exact .pure env

/-- Evaluation follows plain recursion. -/
theorem eval_follows (fuel : ℕ) (s : Stmt) (env : Environment) :
    (s.eval fuel env).Follows (s.itemize fuel env) := by
  induction s generalizing env with
  | assign name value =>
    rw [eval_assign, itemize]
    exact .bind (.tick _) fun _ => .bind (.lift _) fun v => .pure _
  | skip =>
    rw [eval_skip, itemize]
    exact .bind (.tick _) fun _ => .pure env
  | ifThenElse condition consequence alternative ihConsequence ihAlternative =>
    rw [eval_ifThenElse, itemize]
    refine .bind (.tick _) fun _ => .bind (.lift _) fun truth => ?_
    cases truth with
    | true => exact ihConsequence env
    | false => exact ihAlternative env
  | seq first second ihFirst ihSecond =>
    rw [eval_seq, itemize]
    exact .bind (.tick _) fun _ => .bind (ihFirst env) ihSecond
  | whileDo condition body ih =>
    rw [eval_whileDo, itemize]
    exact .bind (.tick _) fun _ => evalLoop_follows ih fuel env 0

end Stmt

/-- What is executed with the given gas of what plain recursion lists: all of it, or what comes up to
the item that is refused its unit. -/
inductive Executed (plain : Itemized Environment) (gas : Gas) : List Item → Result → Gas → Prop where
  | all {result : Result} {left : Gas}
      (granted : gas.charge plain.items.length = (.ok (), left))
      (ended : plain.ending = some result) : Executed plain gas plain.items result left
  | cut {before rest : List Item} {item : Item} {fault : Fault} {paid left : Gas}
      (listed : plain.items = before ++ item :: rest)
      (granted : gas.charge before.length = (.ok (), paid))
      (refused : paid.tick = (.error fault, left)) :
      Executed plain gas (before ++ [item]) (.error fault) left

namespace Executed

variable {plain : Itemized Environment} {gas left : Gas} {items : List Item} {result : Result}

/-- One unit is used for each item that is executed, the refused one included. -/
theorem used (executed : Executed plain gas items result left) :
    left = { gas with used := gas.used + .ofNat items.length } := by
  cases executed with
  | all granted _ => exact Gas.eq_of_charge_ok granted
  | @cut before _ item _ paid _ _ granted refused =>
    have spent : left = paid.spend := (congrArg Prod.snd refused).symm
    rw [spent, Gas.eq_of_charge_ok granted, List.length_append, List.length_singleton, Gas.spend]
    simp [UInt64.ofNat_add, UInt64.add_assoc]

/-- A bill of one unit for each item is paid by executing the items. -/
theorem exists_iff_pay :
    (∃ items, Executed plain gas items result left) ↔
      gas.pay plain.items.length plain.ending = some (result, left) := by
  constructor
  · rintro ⟨items, executed⟩
    cases executed with
    | all granted ended => rw [Gas.pay_of_ok granted, ended, Option.map_some]
    | cut listed granted refused =>
      refine Gas.pay_of_error (Gas.charge_of_refused_behind granted refused ?_) _
      rw [listed, List.length_append, List.length_cons]
      omega
  · intro paid
    rcases charged : gas.charge plain.items.length with ⟨fault | _, after⟩
    · rw [Gas.pay_of_error charged] at paid
      cases paid
      obtain ⟨fewer, before, less, granted, refused⟩ := Gas.exists_refused_of_charge charged
      have listed : plain.items =
          plain.items.take fewer ++ plain.items[fewer] :: plain.items.drop (fewer + 1) := by
        rw [← List.drop_eq_getElem_cons less, List.take_append_drop]
      refine ⟨_, .cut listed ?_ refused⟩
      rwa [List.length_take_of_le (Nat.le_of_lt less)]
    · rw [Gas.pay_of_ok charged] at paid
      obtain ⟨own, ended, same⟩ := Option.map_eq_some_iff.mp paid
      cases same
      exact ⟨_, .all charged ended⟩

end Executed

namespace Strategy

variable {strategy : Strategy} {first second : Stmt} {env : Environment} {gas : Gas}

/-- With every fuel and every gas, one unit is charged for each item of plain recursion. -/
theorem run?_eq_pay_items (fuel : ℕ) (s : Stmt) (env : Environment) (gas : Gas) :
    bigStep.run? fuel s env gas =
      gas.pay (s.itemize fuel env).items.length (s.itemize fuel env).ending :=
  s.eval_follows fuel env { gas }

/-- What has been reported before makes no difference to a run. -/
theorem run?_of_meter (fuel : ℕ) (s : Stmt) (env : Environment) (meter : Meter) :
    ((s.eval fuel env).run meter).map (fun (result, left) => (result, left.gas)) =
      bigStep.run? fuel s env meter.gas := by
  rw [run?_eq_pay_items]
  exact s.eval_follows fuel env meter

/-- One unit for the sequence, then its first statement, then the second from where the first has
come to. What fails on the way is the end. -/
def inTurn? (strategy : Strategy) (fuel : ℕ) (first second : Stmt) (env : Environment) (gas : Gas) :
    Option (Result × Gas) :=
  match gas.tick with
  | (.error fault, gas) => some (.error fault, gas)
  | (.ok (), gas) =>
    match strategy.run? fuel first env gas with
    | some (.ok middle, gas) => strategy.run? fuel second middle gas
    | ended => ended

/-- With every fuel, evaluation runs the parts of a sequence in turn. -/
theorem run?_bigStep_seq (fuel : ℕ) (first second : Stmt) (env : Environment) (gas : Gas) :
    bigStep.run? fuel (.seq first second) env gas = bigStep.inTurn? fuel first second env gas := by
  have start := run?_of_meter fuel (.seq first second) env { gas }
  rw [← start, Stmt.eval_seq, Metered.run_bind, Metered.run_tick, inTurn?, Gas.tick]
  cases granted : gas.spend.check with
  | error fault => rfl
  | ok =>
    have opening := run?_of_meter fuel first env { gas := gas.spend }
    simp only [Metered.run_bind, ← opening]
    rcases (first.eval fuel env).run { gas := gas.spend } with _ | ⟨fault | middle, between⟩
    · rfl
    · rfl
    · exact run?_of_meter fuel second middle between

theorem run?_denotational_seq (fuel : ℕ) (first second : Stmt) (env : Environment) (gas : Gas) :
    denotational.run? fuel (.seq first second) env gas =
      denotational.inTurn? fuel first second env gas := by
  simp only [← run?_bigStep, run?_bigStep_seq, inTurn?]

/-- The run of a sequence whose parts are run in turn. -/
inductive ReturnsInTurn (strategy : Strategy) (first second : Stmt) (env : Environment) (gas : Gas) :
    Result → Gas → Prop where
  | refused {fault : Fault} {left : Gas} (refused : gas.tick = (.error fault, left)) :
      ReturnsInTurn strategy first second env gas (.error fault) left
  | failed {fault : Fault} {paid left : Gas} (granted : gas.tick = (.ok (), paid))
      (failed : strategy.Returns first env paid (.error fault) left) :
      ReturnsInTurn strategy first second env gas (.error fault) left
  | passed {middle : Environment} {result : Result} {paid between left : Gas}
      (granted : gas.tick = (.ok (), paid))
      (passed : strategy.Returns first env paid (.ok middle) between)
      (ended : strategy.Returns second middle between result left) :
      ReturnsInTurn strategy first second env gas result left

/-- The run of a sequence whose parts are run in turn has no end when one of these runs has none. -/
inductive DivergesInTurn (strategy : Strategy) (first second : Stmt) (env : Environment)
    (gas : Gas) : Prop where
  | first {paid : Gas} (granted : gas.tick = (.ok (), paid))
      (forever : strategy.Diverges first env paid)
  | second {middle : Environment} {paid between : Gas} (granted : gas.tick = (.ok (), paid))
      (passed : strategy.Returns first env paid (.ok middle) between)
      (forever : strategy.Diverges second middle between)

theorem returnsInTurn_iff {result : Result} {left : Gas} :
    strategy.ReturnsInTurn first second env gas result left ↔
      ∃ fuel, strategy.inTurn? fuel first second env gas = some (result, left) := by
  constructor
  · intro returned
    cases returned with
    | refused refused => exact ⟨0, by rw [inTurn?, refused]⟩
    | failed granted failed =>
      obtain ⟨fuel, ran⟩ := failed
      exact ⟨fuel, by simp only [inTurn?, granted, ran]⟩
    | passed granted passed ended =>
      obtain ⟨fuel, ran⟩ := passed
      obtain ⟨more, ranOn⟩ := ended
      have opening := run?_of_more_fuel (Nat.le_max_left fuel more) ran
      have rest := run?_of_more_fuel (Nat.le_max_right fuel more) ranOn
      exact ⟨max fuel more, by simp only [inTurn?, granted, opening, rest]⟩
  · rintro ⟨fuel, ran⟩
    rcases ticked : gas.tick with ⟨fault | _, paid⟩
    · simp only [inTurn?, ticked] at ran
      cases ran
      exact .refused ticked
    · rcases opening : strategy.run? fuel first env paid with _ | ⟨fault | middle, between⟩
      · simp only [inTurn?, ticked, opening] at ran
        cases ran
      · simp only [inTurn?, ticked, opening] at ran
        cases ran
        exact .failed ticked ⟨fuel, opening⟩
      · simp only [inTurn?, ticked, opening] at ran
        exact .passed ticked ⟨fuel, opening⟩ ⟨fuel, ran⟩

/-- Parts that are run in turn come to an end, or one of them goes on forever. -/
theorem divergesInTurn_iff :
    strategy.DivergesInTurn first second env gas ↔
      ∀ result left, ¬ strategy.ReturnsInTurn first second env gas result left := by
  constructor
  · intro diverges result left returned
    rcases diverges with ⟨granted, forever⟩ | ⟨granted, passed, forever⟩ <;>
      rcases returned with ⟨refused⟩ | ⟨again, failed⟩ | ⟨again, passedAgain, ended⟩
    · cases granted.symm.trans refused
    · cases granted.symm.trans again
      exact diverges_iff.mp forever _ _ failed
    · cases granted.symm.trans again
      exact diverges_iff.mp forever _ _ passedAgain
    · cases granted.symm.trans refused
    · cases granted.symm.trans again
      cases (passed.unique failed).1
    · cases granted.symm.trans again
      obtain ⟨same, rfl⟩ := passed.unique passedAgain
      cases same
      exact diverges_iff.mp forever _ _ ended
  · intro never
    rcases ticked : gas.tick with ⟨fault | _, paid⟩
    · exact absurd (.refused ticked) (never _ _)
    · by_cases forever : strategy.Diverges first env paid
      · exact .first ticked forever
      · simp only [diverges_iff, not_forall, not_not] at forever
        obtain ⟨fault | middle, between, returned⟩ := forever
        · exact absurd (.failed ticked returned) (never _ _)
        · refine .second ticked returned (diverges_iff.mpr fun result left ended => ?_)
          exact never result left (.passed ticked returned ended)

/-- The strategy comes to what plain recursion comes to, unit for unit. -/
structure RunsPlainly (strategy : Strategy) : Prop where
  /-- A sequence is run in turn, with every fuel and so in all. -/
  inTurn (fuel : ℕ) (first second : Stmt) (env : Environment) (gas : Gas) :
    strategy.run? fuel (.seq first second) env gas = strategy.inTurn? fuel first second env gas
  returns_iff (first second : Stmt) (env : Environment) (gas : Gas) (result : Result) (left : Gas) :
    strategy.Returns (.seq first second) env gas result left ↔
      strategy.ReturnsInTurn first second env gas result left
  diverges_iff (first second : Stmt) (env : Environment) (gas : Gas) :
    strategy.Diverges (.seq first second) env gas ↔
      strategy.DivergesInTurn first second env gas
  /-- However a program nests, each statement and each iteration that it executes costs one unit, and
  nothing else does. -/
  executed_iff (s : Stmt) (env : Environment) (gas : Gas) (result : Result) (left : Gas) :
    strategy.Returns s env gas result left ↔
      ∃ fuel items, Executed (s.itemize fuel env) gas items result left ∧
        left = { gas with used := gas.used + .ofNat items.length }

/-- It is enough to know it with every fuel. -/
private theorem RunsPlainly.of_fuel
    (inTurn : ∀ fuel first second env gas,
      strategy.run? fuel (.seq first second) env gas = strategy.inTurn? fuel first second env gas)
    (itemized : ∀ fuel (s : Stmt) env gas, strategy.run? fuel s env gas =
      gas.pay (s.itemize fuel env).items.length (s.itemize fuel env).ending) :
    strategy.RunsPlainly := by
  have returns (first second : Stmt) (env : Environment) (gas : Gas) (result : Result) (left : Gas) :
      strategy.Returns (.seq first second) env gas result left ↔
        strategy.ReturnsInTurn first second env gas result left := by
    rw [returnsInTurn_iff]
    exact exists_congr fun fuel => by rw [inTurn]
  refine ⟨inTurn, returns, ?_, ?_⟩
  · intro first second env gas
    refine Strategy.diverges_iff.trans (Iff.trans ?_ divergesInTurn_iff.symm)
    exact forall₂_congr fun result left => not_congr (returns first second env gas result left)
  · intro s env gas result left
    refine exists_congr fun fuel => ?_
    rw [itemized, ← Executed.exists_iff_pay]
    exact exists_congr fun items => (and_iff_left_of_imp Executed.used).symm

/-- Evaluation, which walks along the spine of a block, and meaning, which is a flat list of steps,
come to what plain recursion comes to: with any gas a sequence uses one unit and then runs its parts
in turn, and a program uses one unit for each statement and each iteration that it executes. -/
theorem flat_runs_are_plain : bigStep.RunsPlainly ∧ denotational.RunsPlainly := by
  constructor
  · exact .of_fuel run?_bigStep_seq run?_eq_pay_items
  · refine .of_fuel run?_denotational_seq fun fuel s env gas => ?_
    rw [← run?_bigStep, run?_eq_pay_items]

end Strategy

end Concord
