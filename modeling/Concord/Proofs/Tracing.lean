import Concord.Proofs.Session
import Mathlib.Data.List.Basic

/-! # What a run lets be seen

Two observers follow a run of the machine. The sink is handed a line for each state, and the events
tell of each step. Line and event of a state are let out at different places, and a run can be over
at either of them; still both observers have been told of the same states when it is, of all of them
and of no other: of the path that the reduction takes from the state at the call to the state in
which the machine is left.
-/

namespace Concord

def stateLine (state : Stmt × Environment) : String := state.1.text ++ ", " ++ state.2.text

namespace Event

/-- The state that the event shows, if its fields show one, as one line of a trace. -/
def shownState? (event : Event) : Option String := do
  let statement ← event.fields.lookup "statement"
  let environment ← event.fields.lookup "environment"
  return statement ++ ", " ++ environment

/-- The number of the step that the event tells of, with the state that it shows. -/
def step? : Event → Option (UInt64 × String)
  | reduced step statement environment =>
    (reduced step statement environment).shownState?.map (step, ·)
  | _ => none

/-- The events that tell of the states on a path, numbered on from the steps made before. -/
def reductions (before : UInt64) : List (Stmt × Environment) → List Event
  | [] => []
  | (statement, environment) :: rest =>
    reduced (before + 1) statement environment :: reductions (before + 1) rest

/-- The event that tells of a normal form, if the run has come to one. -/
def halt (steps : UInt64) : Result → List Event
  | .ok _ => [machineHalted steps]
  | .error _ => []

theorem step?_reduced (step : UInt64) (state : Stmt × Environment) :
    (reduced step state.1 state.2).step? = some (step, stateLine state) := rfl

theorem filterMap_step?_reductions (before : UInt64) (states : List (Stmt × Environment)) :
    (reductions before states).filterMap step? =
      (states.map stateLine).mapIdx fun place line => (before + .ofNat (place + 1), line) := by
  induction states generalizing before with
  | nil => rfl
  | cons state rest ih =>
    have shifted (place : ℕ) :
        before + 1 + .ofNat (place + 1) = before + UInt64.ofNat (place + 1 + 1) := by
      rw [UInt64.add_assoc, UInt64.ofNat_add (place + 1) 1, UInt64.add_comm 1]
      rfl
    rw [reductions, List.filterMap_cons_some (step?_reduced _ _), ih, List.map_cons,
      List.mapIdx_cons]
    simp only [shifted]
    rfl

@[simp] theorem filterMap_step?_halt (steps : UInt64) (result : Result) :
    (halt steps result).filterMap step? = [] := by
  cases result <;> rfl

theorem machineHalted_not_mem_reductions (steps before : UInt64)
    (states : List (Stmt × Environment)) : machineHalted steps ∉ reductions before states := by
  induction states generalizing before with
  | nil => simp [reductions]
  | cons state rest ih => simp [reductions, ih]

theorem machineHalted_mem_halt_iff {steps last : UInt64} {result : Result} :
    machineHalted steps ∈ halt last result ↔ (∃ final, result = .ok final) ∧ steps = last := by
  cases result <;> simp [halt]

end Event

namespace Trace

/-- The later trace is the earlier one with lines let out since into the sink, and events reported.
Nothing in it has changed, and nothing has gone to another sink. -/
structure Grows (sink : Sink) (before after : Trace) (lines : List String) (events : List Event) :
    Prop where
  captured : after.lines = before.lines ++ if sink = .buffer then lines else []
  printed : after.printed.toList =
    before.printed.toList ++ if sink = .stdout then lines else []
  events : after.events.toList = before.events.toList ++ events

namespace Grows

variable {sink : Sink}

theorem refl (sink : Sink) (trace : Trace) : Grows sink trace trace [] [] := by
  constructor <;> simp

theorem trans {first second third : Trace} {lines more : List String} {events others : List Event}
    (before : Grows sink first second lines events)
    (onward : Grows sink second third more others) :
    Grows sink first third (lines ++ more) (events ++ others) where
  captured := by
    rw [onward.captured, before.captured, List.append_assoc]
    split <;> rfl
  printed := by
    rw [onward.printed, before.printed, List.append_assoc]
    split <;> rfl
  events := by rw [onward.events, before.events, List.append_assoc]

theorem report (sink : Sink) (trace : Trace) (event : Event) :
    Grows sink trace (trace.report event) [] [event] := by
  constructor <;> simp [Trace.report, Trace.lines]

theorem emit (sink : Sink) (trace : Trace) (line : String) :
    Grows sink trace (trace.emit sink line) [line] [] := by
  cases sink <;> constructor <;> simp [Trace.emit, Trace.push, Trace.lines]

end Grows

end Trace

namespace Machine

open Rewriting

variable {machine next : Machine} {trace left : Trace} {fuel : ℕ} {result : Result}

theorem line_eq (machine : Machine) : machine.line = stateLine machine.state := rfl

/-- From the first state on, which has its line already, a run lets line and event of each further
state out, and the event of the normal form if it comes to one. -/
theorem grows_of_finish (ran : finish fuel machine trace = some (result, next, left)) :
    ∃ states, states.length < fuel ∧ Stmt.rewriting.Path machine.state states next.state ∧
      next.steps = machine.steps + .ofNat states.length ∧
      Trace.Grows machine.sink trace left (states.map stateLine)
        (Event.reductions machine.steps states ++ Event.halt next.steps result) := by
  induction fuel generalizing machine trace with
  | zero => cases ran
  | succ fuel ih =>
    by_cases reducible : machine.statement.isReducible = true
    · rcases stepped : machine.step with ⟨fault | _, after⟩
      · obtain ⟨rfl, _⟩ := step_eq_error stepped
        rw [finish_of_error reducible stepped] at ran
        cases ran
        exact ⟨[], Nat.succ_pos fuel, .nil _, by simp, .refl _ left⟩
      · obtain ⟨state, reduced, rfl⟩ := step_eq_ok stepped
        rw [finish_of_ok reducible stepped] at ran
        obtain ⟨states, within, path, counted, grows⟩ := ih ran
        refine ⟨state :: states, Nat.succ_lt_succ within, .cons reduced path, ?_, ?_⟩
        · rw [counted, List.length_cons, Nat.add_comm, UInt64.ofNat_add, ← UInt64.add_assoc]
          rfl
        · exact ((Trace.Grows.report _ trace _).trans (.emit _ _ _)).trans grows
    · have normal : machine.statement.isReducible = false := by simpa using reducible
      rw [finish_of_normal normal] at ran
      cases ran
      exact ⟨[], Nat.succ_pos fuel, .nil _, by simp, .report _ trace _⟩

/-- A run announces itself, lets the line of the state at the call out, and goes on from there. -/
theorem grows_of_run (ran : machine.run fuel trace = some (result, next, left)) :
    ∃ states, states.length < fuel ∧ Stmt.rewriting.Path machine.state states next.state ∧
      next.steps = machine.steps + .ofNat states.length ∧
      Trace.Grows machine.sink trace left (stateLine machine.state :: states.map stateLine)
        (.machineStarted machine.statement machine.gas.limit ::
          (Event.reductions machine.steps states ++ Event.halt next.steps result)) := by
  obtain ⟨states, within, path, counted, grows⟩ := grows_of_finish ran
  exact ⟨states, within, path, counted,
    ((Trace.Grows.report _ trace _).trans (.emit _ _ _)).trans grows⟩

/-- What is to be seen of a run that has made so many reductions: the lines that it has captured and
the events that it has reported. -/
structure Shows (machine next : Machine) (result : Result) (reductions : ℕ) (lines : List String)
    (events : List Event) : Prop where
  /-- There is one line more than there are reductions. -/
  count : lines.length = 1 + reductions
  /-- The step count has gone on by the reductions, as far as a word can tell. -/
  counted : next.steps = machine.steps + .ofNat reductions
  /-- Each line shows the state after as many reductions as there are lines before it. -/
  line {place : ℕ} (within : place ≤ reductions) :
    ∃ state, Stmt.rewriting.after place machine.state = .ok state ∧
      lines[place]? = some (stateLine state)
  /-- The last line shows the state in which the machine is left. -/
  last : lines.getLast? = some next.line
  /-- The events of the steps show, one for one, the lines after the first, and are numbered on from
  the steps made before. -/
  steps : events.filterMap Event.step? =
    lines.tail.mapIdx fun place line => (machine.steps + .ofNat (place + 1), line)
  /-- The normal form is told of just when the run has come to one. -/
  halted_iff (steps : UInt64) :
    .machineHalted steps ∈ events ↔ (∃ final, result = .ok final) ∧ steps = next.steps

/-- By the step count itself, there is one line more than there were steps. -/
theorem Shows.length_lines {reductions : ℕ} {lines : List String} {events : List Event}
    (shows : machine.Shows next result reductions lines events) :
    UInt64.ofNat lines.length = 1 + (next.steps - machine.steps) ∧
      (reductions < 2 ^ 64 → lines.length = 1 + (next.steps - machine.steps).toNat) := by
  have difference : next.steps - machine.steps = .ofNat reductions := by
    rw [shows.counted, UInt64.add_comm, UInt64.add_sub_cancel]
  rw [shows.count, difference, UInt64.ofNat_add]
  refine ⟨rfl, fun few => ?_⟩
  rw [UInt64.toNat_ofNat_of_lt' few]

/-- A run of a machine that captures its trace, from whatever state, with whatever gas, and whatever
has been captured before: when it returns, with an environment or with a fault, it has added to the
buffer the lines of all states that it has passed through, and its events tell of the same ones. -/
theorem trace_complete (captures : machine.sink = .buffer)
    (ran : machine.run fuel trace = some (result, next, left)) :
    ∃ reductions lines events, reductions < fuel ∧ left.lines = trace.lines ++ lines ∧
      left.events.toList = trace.events.toList ++ events ∧
      machine.Shows next result reductions lines events ∧
      UInt64.ofNat lines.length = 1 + (next.steps - machine.steps) ∧
      (reductions < 2 ^ 64 → lines.length = 1 + (next.steps - machine.steps).toNat) := by
  obtain ⟨states, within, path, counted, grows⟩ := grows_of_run ran
  have captured := grows.captured
  rw [if_pos captures] at captured
  have shows : machine.Shows next result states.length
      (stateLine machine.state :: states.map stateLine)
      (.machineStarted machine.statement machine.gas.limit ::
        (Event.reductions machine.steps states ++ Event.halt next.steps result)) := by
    refine ⟨by simp [Nat.add_comm], counted, fun within => ?_, ?_, ?_, fun steps => ?_⟩
    · obtain ⟨state, reached, listed⟩ := path.getElem? within
      refine ⟨state, reached, ?_⟩
      rw [← List.map_cons, List.getElem?_map, listed]
      rfl
    · rw [← List.map_cons, List.getLast?_map, path.getLast?, line_eq]
      rfl
    · rw [List.filterMap_cons_none rfl, List.filterMap_append, Event.filterMap_step?_reductions,
        Event.filterMap_step?_halt, List.append_nil, List.tail_cons]
    · rw [List.mem_cons, List.mem_append, Event.machineHalted_mem_halt_iff]
      simp [Event.machineHalted_not_mem_reductions]
  exact ⟨_, _, _, within, captured, grows.events, shows, shows.length_lines⟩

/-- `x = 1; y = z`, taken up by a machine that has made 40 steps and captured a line before: after
two more steps it fails where it reads `z`, and has captured three more lines. -/
theorem trace_complete_failing :
    ∃ next left first second,
      run 9 {
          statement := .seq (.assign "x" (.ofInt 1)) (.assign "y" (.var "z"))
          environment := .empty
          steps := 40
          sink := .buffer } { captured := #["earlier"] } =
        some (.error (.undefinedVariable "z"), next, left) ∧
      next.steps = 42 ∧
      left.lines = ["earlier", first, second, next.line] ∧
      left.events.toList.filterMap Event.step? = [(41, second), (42, next.line)] ∧
      ∀ steps, .machineHalted steps ∉ left.events.toList := by
  have answered : (run 9 {
        statement := .seq (.assign "x" (.ofInt 1)) (.assign "y" (.var "z"))
        environment := .empty
        steps := 40
        sink := .buffer } { captured := #["earlier"] }).map
      (fun ran => (ran.1, ran.2.1.steps)) = some (.error (.undefinedVariable "z"), 42) := rfl
  obtain ⟨⟨result, next, left⟩, ran, same⟩ := Option.map_eq_some_iff.mp answered
  obtain ⟨rfl, counted⟩ := Prod.mk.inj same
  have counted : next.steps = 42 := counted
  obtain ⟨reductions, lines, events, within, captured, reported, shows, _, length⟩ :=
    trace_complete rfl ran
  have length := length (by omega)
  rw [counted] at length
  obtain ⟨first, second, third, rfl⟩ := List.length_eq_three.mp length
  obtain rfl : third = next.line := Option.some.inj shows.last
  have reported : left.events.toList = events := reported
  refine ⟨next, left, first, second, ran, counted, captured, ?_, fun steps halted => ?_⟩
  · rw [reported, shows.steps]
    rfl
  · rw [reported] at halted
    obtain ⟨⟨final, ok⟩, _⟩ := (shows.halted_iff steps).mp halted
    cases ok

end Machine

end Concord
