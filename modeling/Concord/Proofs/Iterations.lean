import Concord.Proofs.Emission
import Concord.Proofs.Threshold

/-! # The iterations that a run reports

A run reports an event for each iteration that a loop has completed. `Stmt.Logs` says, by recursion
on the statement and without fuel, which iterations these are: those of the parts that have been
run, in the order in which they have been run, each loop iteration after those of the loops inside
of it, and an iteration that has failed not at all. Neither the gas that runs out nor the fault that
ends the run takes any of them back. Direct evaluation and meaning both keep to these rules.
-/

namespace Concord

/-- How a run can go that is started with some gas: the result that it comes to, the gas that it
leaves, and the environments that the iterations it reports have led to. -/
abbrev Course : Type := Gas → Result → Gas → List Environment → Prop

/-- The course of what is done for one unit of gas. -/
inductive Course.Paid (course : Course) : Course where
  | refused {gas : Gas} {fault : Fault} (refused : gas.spend.check = .error fault) :
      Paid course gas (.error fault) gas.spend []
  | granted {gas left : Gas} {result : Result} {log : List Environment}
      (granted : gas.spend.check = .ok ()) (onward : course gas.spend result left log) :
      Paid course gas result left log

namespace Course.Paid

variable {course : Course} {gas left : Gas} {result : Result} {log : List Environment}

/-- What is done for a unit of gas goes by the rules when the rest does. -/
theorem of_run {next : Unit → Metered Environment} {meter after : Meter}
    (onward : ∀ {meter}, (next ()).run meter = some (result, after) →
      ∃ log, after.iterations = meter.iterations ++ log ∧
        course meter.gas result after.gas log)
    (ran : (Metered.tick >>= next).run meter = some (result, after)) :
    ∃ log, after.iterations = meter.iterations ++ log ∧
      Paid course meter.gas result after.gas log := by
  obtain ⟨fault, refused, rfl, rfl⟩ | ⟨granted, ran⟩ := Metered.run_tick_bind_eq_some ran
  · exact ⟨[], (List.append_nil _).symm, .refused refused⟩
  · obtain ⟨log, reported, rest⟩ := onward ran
    exact ⟨log, reported, .granted granted rest⟩

/-- What is done for a unit of gas can be run with enough fuel when the rest can. -/
theorem emits {next : ℕ → Metered Environment}
    (onward : course gas.spend result left log →
      ∃ fuel, (next fuel).Emits gas.spend result left log)
    (paid : Paid course gas result left log) :
    ∃ fuel, (Metered.tick >>= fun _ => next fuel).Emits gas result left log := by
  cases paid with
  | refused refused => exact ⟨0, .tick_refused refused _⟩
  | granted granted rest =>
    obtain ⟨fuel, emits⟩ := onward rest
    exact ⟨fuel, .tick_bind granted emits⟩

end Course.Paid

/-- The courses of a loop, of which `body` says how its single iterations can go. -/
inductive Laps (condition : Expr) (body : Environment → Course) : Environment → Course where
  /-- The condition has no truth value. -/
  | conditionFault {env : Environment} {gas : Gas} {fault : Fault}
      (failed : condition.holds env = .error fault) :
      Laps condition body env gas (.error fault) gas []
  /-- The condition is false. -/
  | done {env : Environment} {gas : Gas} (exit : condition.holds env = .ok false) :
      Laps condition body env gas (.ok env) gas []
  /-- There is no gas for the iteration. -/
  | refused {env : Environment} {gas : Gas} {fault : Fault}
      (enter : condition.holds env = .ok true) (refused : gas.spend.check = .error fault) :
      Laps condition body env gas (.error fault) gas.spend []
  /-- The iteration fails: what the loops inside of it have reported stays, and nothing is reported
  for the iteration itself. -/
  | bodyFault {env : Environment} {gas left : Gas} {fault : Fault} {inner : List Environment}
      (enter : condition.holds env = .ok true) (granted : gas.spend.check = .ok ())
      (failed : body env gas.spend (.error fault) left inner) :
      Laps condition body env gas (.error fault) left inner
  /-- The iteration is over and is reported, after those inside of it, and the loop goes on. -/
  | again {env next : Environment} {gas between left : Gas} {result : Result}
      {inner rest : List Environment}
      (enter : condition.holds env = .ok true) (granted : gas.spend.check = .ok ())
      (iterated : body env gas.spend (.ok next) between inner)
      (onward : Laps condition body next between result left rest) :
      Laps condition body env gas result left (inner ++ next :: rest)

namespace Stmt

/-- How a run of the statement goes, and which iterations it reports. -/
def Logs : Stmt → Environment → Course
  | assign name value, env =>
    Course.Paid fun gas result left log =>
      result = (value.eval env).map (env.insert name) ∧ left = gas ∧ log = []
  | skip, env => Course.Paid fun gas result left log => result = .ok env ∧ left = gas ∧ log = []
  | ifThenElse condition consequence alternative, env =>
    Course.Paid fun gas result left log =>
      (∃ fault, condition.holds env = .error fault ∧ result = .error fault ∧ left = gas ∧
        log = []) ∨
      (condition.holds env = .ok true ∧ consequence.Logs env gas result left log) ∨
      (condition.holds env = .ok false ∧ alternative.Logs env gas result left log)
  | seq first second, env =>
    Course.Paid fun gas result left log =>
      (∃ fault, first.Logs env gas (.error fault) left log ∧ result = .error fault) ∨
      ∃ middle between before after, first.Logs env gas (.ok middle) between before ∧
        second.Logs middle between result left after ∧ log = before ++ after
  | whileDo condition body, env => Course.Paid (Laps condition body.Logs env)

variable {s : Stmt} {env : Environment} {gas left : Gas} {result : Result} {log : List Environment}

/-- A loop goes by the rules when its body does. -/
private theorem laps_of_run {condition : Expr} {body : Environment → Metered Environment}
    {course : Environment → Course}
    (bodyLogs : ∀ {env meter result after}, (body env).run meter = some (result, after) →
      ∃ log, after.iterations = meter.iterations ++ log ∧
        course env meter.gas result after.gas log)
    {fuel : ℕ} {count : UInt64} {meter after : Meter}
    (ran : (evalLoop condition body fuel env count).run meter = some (result, after)) :
    ∃ log, after.iterations = meter.iterations ++ log ∧
      Laps condition course env meter.gas result after.gas log := by
  induction fuel generalizing env count meter with
  | zero => cases ran
  | succ fuel ih =>
    rw [evalLoop] at ran
    cases holds : condition.holds env with
    | error fault =>
      rw [holds] at ran
      cases ran
      exact ⟨[], (List.append_nil _).symm, .conditionFault holds⟩
    | ok truth =>
      rw [holds] at ran
      cases truth with
      | false =>
        cases ran
        exact ⟨[], (List.append_nil _).symm, .done holds⟩
      | true =>
        obtain ⟨fault, refused, rfl, rfl⟩ | ⟨granted, ran⟩ := Metered.run_tick_bind_eq_some ran
        · exact ⟨[], (List.append_nil _).symm, .refused holds refused⟩
        obtain ⟨fault, failed, rfl⟩ | ⟨next, middle, iterated, ran⟩ := Metered.run_bind_eq_some ran
        · obtain ⟨inner, reported, failing⟩ := bodyLogs failed
          exact ⟨inner, reported, .bodyFault holds granted failing⟩
        · obtain ⟨inner, reported, lap⟩ := bodyLogs iterated
          obtain ⟨rest, reportedRest, onward⟩ := ih ran
          refine ⟨inner ++ next :: rest, ?_, .again holds granted lap onward⟩
          rw [reportedRest, Meter.iterations_push, reported, List.append_assoc, List.append_assoc]
          rfl

/-- A run of evaluation goes by the rules. -/
theorem logs_of_run {fuel : ℕ} {meter after : Meter}
    (ran : (s.eval fuel env).run meter = some (result, after)) :
    ∃ log, after.iterations = meter.iterations ++ log ∧
      s.Logs env meter.gas result after.gas log := by
  induction s generalizing env meter result after with
  | assign name value =>
    rw [eval_assign] at ran
    refine Course.Paid.of_run (fun ran => ⟨[], ?_⟩) ran
    cases evaluated : value.eval env with
    | error fault =>
      rw [evaluated] at ran
      cases ran
      exact ⟨(List.append_nil _).symm, rfl, rfl, rfl⟩
    | ok v =>
      rw [evaluated] at ran
      cases ran
      exact ⟨(List.append_nil _).symm, rfl, rfl, rfl⟩
  | skip =>
    rw [eval_skip] at ran
    refine Course.Paid.of_run (fun ran => ?_) ran
    cases ran
    exact ⟨[], (List.append_nil _).symm, rfl, rfl, rfl⟩
  | ifThenElse condition consequence alternative ihConsequence ihAlternative =>
    rw [eval_ifThenElse] at ran
    refine Course.Paid.of_run (fun ran => ?_) ran
    cases holds : condition.holds env with
    | error fault =>
      rw [holds] at ran
      cases ran
      exact ⟨[], (List.append_nil _).symm, .inl ⟨fault, rfl, rfl, rfl, rfl⟩⟩
    | ok truth =>
      rw [holds] at ran
      cases truth with
      | true =>
        obtain ⟨log, reported, logs⟩ := ihConsequence ran
        exact ⟨log, reported, .inr (.inl ⟨rfl, logs⟩)⟩
      | false =>
        obtain ⟨log, reported, logs⟩ := ihAlternative ran
        exact ⟨log, reported, .inr (.inr ⟨rfl, logs⟩)⟩
  | seq first second ihFirst ihSecond =>
    rw [eval_seq] at ran
    refine Course.Paid.of_run (fun ran => ?_) ran
    obtain ⟨fault, failed, rfl⟩ | ⟨middle, between, passed, ran⟩ := Metered.run_bind_eq_some ran
    · obtain ⟨log, reported, logs⟩ := ihFirst failed
      exact ⟨log, reported, .inl ⟨fault, logs, rfl⟩⟩
    · obtain ⟨before, reported, logsBefore⟩ := ihFirst passed
      obtain ⟨rest, reportedRest, logsRest⟩ := ihSecond ran
      refine ⟨before ++ rest, ?_, .inr ⟨middle, between.gas, before, rest, ?_⟩⟩
      · rw [reportedRest, reported, List.append_assoc]
      · exact ⟨logsBefore, logsRest, rfl⟩
  | whileDo condition body ih =>
    rw [eval_whileDo] at ran
    exact Course.Paid.of_run (laps_of_run ih) ran

/-- A loop can be run with enough fuel as the rules say. -/
private theorem evalLoop_emits_of_laps {condition : Expr} {body : Stmt}
    (bodyEmits : ∀ {env gas result left log}, body.Logs env gas result left log →
      ∃ fuel, (body.eval fuel env).Emits gas result left log)
    (laps : Laps condition body.Logs env gas result left log) :
    ∃ fuel, ∀ count, (evalLoop condition (body.eval fuel) fuel env count).Emits gas result left
      log := by
  induction laps with
  | conditionFault failed => exact ⟨1, fun _ => .lift_bind_fault failed _ _⟩
  | done exit => exact ⟨1, fun _ => .lift_bind exit (.pure _ _)⟩
  | refused enter refused => exact ⟨1, fun _ => .lift_bind enter (.tick_refused refused _)⟩
  | bodyFault enter granted failed =>
    obtain ⟨fuel, emits⟩ := bodyEmits failed
    refine ⟨fuel + 1, fun _ => .lift_bind enter (.tick_bind granted (.bind_fault ?_ _))⟩
    exact emits.of_below (eval_below (Nat.le_succ fuel) body _)
  | @again env next gas between left result inner rest enter granted iterated _ ih =>
    obtain ⟨fuel, emits⟩ := bodyEmits iterated
    obtain ⟨loopFuel, loopEmits⟩ := ih
    let more := max fuel loopFuel + 1
    have iteration : (body.eval more env).Emits gas.spend (.ok next) between inner :=
      emits.of_below (eval_below (by omega) body env)
    have onward (count : UInt64) :
        (evalLoop condition (body.eval more) (max fuel loopFuel) next count).Emits between result
          left rest :=
      (loopEmits count).of_below
        (evalLoop_below (fun env => eval_below (by omega) body env) (by omega) next count)
    refine ⟨more, fun count => .lift_bind enter (.tick_bind granted (iteration.bind ?_))⟩
    exact .report_bind (onward (count + 1))

/-- What goes by the rules can be run with enough fuel. -/
theorem Logs.emits (logs : s.Logs env gas result left log) :
    ∃ fuel, (s.eval fuel env).Emits gas result left log := by
  induction s generalizing env gas result left log with
  | assign name value =>
    simp only [eval_assign]
    refine Course.Paid.emits (fun ended => ⟨0, ?_⟩) logs
    obtain ⟨rfl, rfl, rfl⟩ := ended
    cases evaluated : value.eval env with
    | error fault => exact .lift_bind_fault rfl _ _
    | ok v => exact .lift_bind rfl (.pure _ _)
  | skip =>
    simp only [eval_skip]
    refine Course.Paid.emits (fun ended => ⟨0, ?_⟩) logs
    obtain ⟨rfl, rfl, rfl⟩ := ended
    exact .pure _ _
  | ifThenElse condition consequence alternative ihConsequence ihAlternative =>
    simp only [eval_ifThenElse]
    refine Course.Paid.emits (fun taken => ?_) logs
    obtain ⟨fault, failed, rfl, rfl, rfl⟩ | ⟨holds, branch⟩ | ⟨holds, branch⟩ := taken
    · exact ⟨0, .lift_bind_fault failed _ _⟩
    · obtain ⟨fuel, emits⟩ := ihConsequence branch
      exact ⟨fuel, .lift_bind holds emits⟩
    · obtain ⟨fuel, emits⟩ := ihAlternative branch
      exact ⟨fuel, .lift_bind holds emits⟩
  | seq first second ihFirst ihSecond =>
    simp only [eval_seq]
    refine Course.Paid.emits (fun ended => ?_) logs
    obtain ⟨fault, failed, rfl⟩ | ⟨middle, between, before, after, passed, ended, rfl⟩ := ended
    · obtain ⟨fuel, emits⟩ := ihFirst failed
      exact ⟨fuel, emits.bind_fault _⟩
    · obtain ⟨fuel, emits⟩ := ihFirst passed
      obtain ⟨more, emitsRest⟩ := ihSecond ended
      have opening := emits.of_below (eval_below (Nat.le_max_left fuel more) first env)
      have rest := emitsRest.of_below (eval_below (Nat.le_max_right fuel more) second middle)
      exact ⟨max fuel more, opening.bind rest⟩
  | whileDo condition body ih =>
    simp only [eval_whileDo]
    refine Course.Paid.emits (fun laps => ?_) logs
    obtain ⟨fuel, emits⟩ := evalLoop_emits_of_laps ih laps
    exact ⟨fuel, emits 0⟩

end Stmt

/-- The environments that the iterations have led to that an execution has reported, in order. -/
def Execution.iterations (done : Execution) : List Environment :=
  done.events.filterMap Event.iteration?

/-- What opens and closes an execution is no iteration. -/
theorem Execution.iterations_ofRun (run : Run) (meter : Meter) :
    (Execution.ofRun run meter.events).iterations = meter.iterations := by
  have closing : (Event.closing run.result).filterMap Event.iteration? = [] := by
    cases run.result <;> rfl
  rw [iterations, ofRun, List.filterMap_cons_none rfl, List.filterMap_append, closing,
    List.append_nil]
  rfl

namespace Strategy

/-- With fuel for it, the run comes to the result and reports iterations that have led to these
environments, in this order. -/
def Reports (strategy : Strategy) (s : Stmt) (env : Environment) (limit : Option UInt64)
    (result : Result) (iterations : List Environment) : Prop :=
  ∃ fuel done, strategy.execute fuel s env limit = some done ∧
    done.result = result ∧ done.iterations = iterations

variable {s : Stmt} {env : Environment} {limit : Option UInt64} {result : Result}
  {iterations : List Environment}

/-- An execution reports the iterations that its meter has counted up. -/
private theorem exists_execution_iff (strategy : Strategy) (ended : Option (Result × Meter)) :
    (∃ done, (ended.bind fun (result, meter) =>
          some (Execution.ofRun { strategy, result } meter.events)) = some done ∧
        done.result = result ∧ done.iterations = iterations) ↔
      ∃ meter, ended = some (result, meter) ∧ meter.iterations = iterations := by
  constructor
  · rintro ⟨done, executed, rfl, rfl⟩
    obtain ⟨⟨result, meter⟩, ran, same⟩ := Option.bind_eq_some_iff.mp executed
    cases same
    exact ⟨meter, ran, (Execution.iterations_ofRun _ meter).symm⟩
  · rintro ⟨meter, rfl, rfl⟩
    exact ⟨_, rfl, rfl, Execution.iterations_ofRun _ meter⟩

theorem reports_bigStep_iff :
    bigStep.Reports s env limit result iterations ↔
      ∃ fuel meter, (s.eval fuel env).run { gas := .ofLimit limit } = some (result, meter) ∧
        meter.iterations = iterations :=
  exists_congr fun _ => exists_execution_iff bigStep _

theorem reports_denotational_iff :
    denotational.Reports s env limit result iterations ↔
      ∃ fuel meter,
        (s.meaning.apply fuel env).run { gas := .ofLimit limit } = some (result, meter) ∧
          meter.iterations = iterations :=
  exists_congr fun _ => exists_execution_iff denotational _

/-- Evaluation and meaning report the same iterations. -/
theorem reports_bigStep_iff_denotational :
    bigStep.Reports s env limit result iterations ↔
      denotational.Reports s env limit result iterations := by
  rw [reports_bigStep_iff, reports_denotational_iff]
  refine exists_congr fun fuel => ?_
  have alike := s.eval_alike fuel env { gas := .ofLimit limit } { gas := .ofLimit limit } rfl
  have shows (ended : Option (Result × Meter)) :
      (∃ meter, ended = some (result, meter) ∧ meter.iterations = iterations) ↔
        ∃ gas, ended.map (fun (result, meter) => (result, meter.shown)) =
          some (result, gas, iterations) := by
    rcases ended with _ | ⟨own, meter⟩ <;> simp [Meter.shown]
  rw [shows, shows, alike]

/-- Evaluation reports what the rules say. -/
theorem reports_iff_logs :
    bigStep.Reports s env limit result iterations ↔
      ∃ left, s.Logs env (.ofLimit limit) result left iterations := by
  rw [reports_bigStep_iff]
  constructor
  · rintro ⟨fuel, meter, ran, rfl⟩
    obtain ⟨log, reported, logs⟩ := Stmt.logs_of_run ran
    rw [reported]
    exact ⟨meter.gas, logs⟩
  · rintro ⟨left, logs⟩
    obtain ⟨fuel, emits⟩ := logs.emits
    obtain ⟨after, ran, shown⟩ := emits { gas := .ofLimit limit } rfl
    exact ⟨fuel, after, ran, congrArg Prod.snd shown⟩

/-- There is one report at most. -/
theorem Reports.unique {other : Result} {others : List Environment}
    (reports : bigStep.Reports s env limit result iterations)
    (again : bigStep.Reports s env limit other others) : result = other ∧ iterations = others := by
  obtain ⟨fuel, meter, ran, rfl⟩ := reports_bigStep_iff.mp reports
  obtain ⟨more, otherMeter, ranAgain, rfl⟩ := reports_bigStep_iff.mp again
  have here := Stmt.eval_below (Nat.le_max_left fuel more) s env _ _ ran
  have there := Stmt.eval_below (Nat.le_max_right fuel more) s env _ _ ranAgain
  cases here.symm.trans there
  exact ⟨rfl, rfl⟩

/-- Within a limit there is a report, as long as the counter can hold the limit and one more. -/
theorem exists_reports_of_limit (s : Stmt) (env : Environment) {bound : UInt64}
    (room : bound.toNat + 1 < 2 ^ 64) :
    ∃ result iterations, bigStep.Reports s env (some bound) result iterations := by
  have limited : (Gas.limited bound).limit = some bound := rfl
  have fresh : max (Gas.limited bound).used.toNat bound.toNat + 1 < 2 ^ 64 := by
    simpa [Gas.limited] using room
  obtain ⟨result, left, fuel, ran⟩ := exists_returns_of_limit bigStep s env limited fresh
  obtain ⟨⟨own, meter⟩, ran, same⟩ := Option.map_eq_some_iff.mp ran
  exact ⟨own, _, reports_bigStep_iff.mpr ⟨fuel, meter, ran, rfl⟩⟩

/-- With any budget and with none, evaluation and meaning report the same iterations, in the same
order, whatever it is that ends the run, and report nothing while the other has no end. The
iterations are those of the rules, by which an iteration that fails is not among them; and with a
budget that a counter can go beyond, there is a report. -/
theorem loop_events_agree (s : Stmt) (env : Environment) (limit : Option UInt64) :
    (∀ result iterations other others, bigStep.Reports s env limit result iterations →
      denotational.Reports s env limit other others → result = other ∧ iterations = others) ∧
    (∀ result iterations, bigStep.Reports s env limit result iterations ↔
      denotational.Reports s env limit result iterations) ∧
    (∀ result iterations, bigStep.Reports s env limit result iterations ↔
      ∃ left, s.Logs env (.ofLimit limit) result left iterations) ∧
    ∀ bound, limit = some bound → bound.toNat + 1 < 2 ^ 64 →
      ∃ result iterations, bigStep.Reports s env limit result iterations := by
  refine ⟨?_, fun _ _ => reports_bigStep_iff_denotational, fun _ _ => reports_iff_logs, ?_⟩
  · intro result iterations other others reports again
    exact reports.unique (reports_bigStep_iff_denotational.mpr again)
  · rintro bound rfl room
    exact exists_reports_of_limit s env room

/-- The inner loop makes an iteration, and the outer one fails behind it, where it reads `z`. -/
example :
    (denotational.execute 9
        (.whileDo (.literal (.boolean true))
          (.seq (.whileDo (.var "x") (.assign "x" (.literal (.boolean false))))
            (.assign "y" (.var "z"))))
        (.ofList [("x", .boolean true)]) none).map (fun done => (done.result, done.iterations)) =
      some (.error (.undefinedVariable "z"), [.ofList [("x", .boolean false)]]) := rfl

end Strategy

end Concord
