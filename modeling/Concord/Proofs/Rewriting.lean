import Concord.Fault

/-! # Rewriting step by step

A rewriting system makes one step at a time, until it comes to a normal form, which has a value, or
to a term whose step fails. `Rewriting.Ends` counts the successful steps of a run up to that point;
a run has at most one end, and one that has none makes any number of steps. `Rewriting.Path` keeps
the terms that a run passes through. A context carries the steps and faults of one system over to
another, and with them whole runs.
-/

namespace Concord

theorem bind_eq_ok_iff {ε α β : Type} {first : Except ε α} {next : α → Except ε β} {b : β} :
    (first >>= next) = .ok b ↔ ∃ a, first = .ok a ∧ next a = .ok b := by
  cases first <;> simp [bind, Except.bind]

theorem bind_eq_error_iff {ε α β : Type} {first : Except ε α} {next : α → Except ε β} {e : ε} :
    (first >>= next) = .error e ↔
      first = .error e ∨ ∃ a, first = .ok a ∧ next a = .error e := by
  cases first <;> simp [bind, Except.bind]

theorem map_eq_ok_iff {ε α β : Type} {first : Except ε α} {f : α → β} {b : β} :
    first.map f = .ok b ↔ ∃ a, first = .ok a ∧ f a = b := by
  cases first <;> simp [Except.map]

theorem map_eq_error_iff {ε α β : Type} {first : Except ε α} {f : α → β} {e : ε} :
    first.map f = .error e ↔ first = .error e := by
  cases first <;> simp [Except.map]

/-- One-step rewriting of terms, of which the normal forms have values. -/
structure Rewriting (σ α : Type) where
  step : σ → Except Fault σ
  value? : σ → Option α
  /-- A normal form makes no step. -/
  value_stops {x : σ} {a : α} : value? x = some a → ∀ y, step x ≠ .ok y

namespace Rewriting

variable {σ τ α β : Type}

/-- The term after so many steps, if all of them succeed. -/
def after (system : Rewriting σ α) : Nat → σ → Except Fault σ
  | 0, x => .ok x
  | steps + 1, x => do system.after steps (← system.step x)

/-- What a run comes to that makes no step from the term, if it makes none. -/
def stop? (system : Rewriting σ α) (x : σ) : Option (Except Fault α) :=
  match system.value? x, system.step x with
  | some a, _ => some (.ok a)
  | none, .error fault => some (.error fault)
  | none, .ok _ => none

/-- The run from the term makes so many steps and comes to the result. -/
def Ends (system : Rewriting σ α) (x : σ) (steps : Nat) (result : Except Fault α) : Prop :=
  ∃ y, system.after steps x = .ok y ∧ system.stop? y = some result

variable {system : Rewriting σ α}

theorem after_succ_of_ok {x y : σ} (stepped : system.step x = .ok y) (steps : Nat) :
    system.after (steps + 1) x = system.after steps y := by
  simp only [after, stepped]
  rfl

theorem after_succ_eq_ok_iff {x z : σ} {steps : Nat} :
    system.after (steps + 1) x = .ok z ↔
      ∃ y, system.step x = .ok y ∧ system.after steps y = .ok z := by
  rw [after, bind_eq_ok_iff]

/-- Runs compose. -/
theorem after_add {x y : σ} {first : Nat} (reached : system.after first x = .ok y)
    (second : Nat) : system.after (first + second) x = system.after second y := by
  induction first generalizing x with
  | zero =>
    cases reached
    rw [Nat.zero_add]
  | succ first ih =>
    obtain ⟨next, stepped, onward⟩ := after_succ_eq_ok_iff.mp reached
    rw [Nat.succ_add, after_succ_of_ok stepped, ih onward]

theorem stop?_of_value {x : σ} {a : α} (value : system.value? x = some a) :
    system.stop? x = some (.ok a) := by
  simp only [stop?, value]

theorem stop?_of_fault {x : σ} {fault : Fault} (normal : system.value? x = none)
    (failed : system.step x = .error fault) : system.stop? x = some (.error fault) := by
  simp only [stop?, normal, failed]

theorem stop?_eq_ok_iff {x : σ} {a : α} :
    system.stop? x = some (.ok a) ↔ system.value? x = some a := by
  rw [stop?]
  split <;> simp_all

theorem stop?_eq_error_iff {x : σ} {fault : Fault} :
    system.stop? x = some (.error fault) ↔
      system.value? x = none ∧ system.step x = .error fault := by
  rw [stop?]
  split <;> simp_all

/-- A run stops exactly where there is no step. -/
theorem stop?_eq_none_iff {x : σ} : system.stop? x = none ↔ ∃ y, system.step x = .ok y := by
  rw [stop?]
  split
  · next value =>
    simp only [reduceCtorEq, false_iff, not_exists]
    exact system.value_stops value
  · simp_all
  · simp_all

theorem Ends.of_stop {x : σ} {result : Except Fault α} (stopped : system.stop? x = some result) :
    system.Ends x 0 result := ⟨x, rfl, stopped⟩

theorem Ends.prepend {x y : σ} {first second : Nat} {result : Except Fault α}
    (reached : system.after first x = .ok y) (ended : system.Ends y second result) :
    system.Ends x (first + second) result := by
  obtain ⟨z, onward, stopped⟩ := ended
  exact ⟨z, (after_add reached second).trans onward, stopped⟩

theorem Ends.cons {x y : σ} {steps : Nat} {result : Except Fault α}
    (stepped : system.step x = .ok y) (ended : system.Ends y steps result) :
    system.Ends x (steps + 1) result := by
  obtain ⟨z, onward, stopped⟩ := ended
  exact ⟨z, (after_succ_of_ok stepped steps).trans onward, stopped⟩

theorem ends_zero_iff {x : σ} {result : Except Fault α} :
    system.Ends x 0 result ↔ system.stop? x = some result := by
  simp [Ends, after]

theorem ends_succ_iff {x : σ} {steps : Nat} {result : Except Fault α} :
    system.Ends x (steps + 1) result ↔
      ∃ y, system.step x = .ok y ∧ system.Ends y steps result := by
  constructor
  · rintro ⟨z, reached, stopped⟩
    obtain ⟨y, stepped, onward⟩ := after_succ_eq_ok_iff.mp reached
    exact ⟨y, stepped, z, onward, stopped⟩
  · rintro ⟨y, stepped, ended⟩
    exact ended.cons stepped

/-- A run has one end, and comes to it after one number of steps. -/
theorem Ends.unique {x : σ} {steps others : Nat} {result other : Except Fault α}
    (ended : system.Ends x steps result) (again : system.Ends x others other) :
    steps = others ∧ result = other := by
  induction steps generalizing x others with
  | zero =>
    have stopped := ends_zero_iff.mp ended
    cases others with
    | zero =>
      have same := stopped.symm.trans (ends_zero_iff.mp again)
      exact ⟨rfl, Option.some.inj same⟩
    | succ others =>
      obtain ⟨y, stepped, _⟩ := ends_succ_iff.mp again
      rw [stop?_eq_none_iff.mpr ⟨y, stepped⟩] at stopped
      cases stopped
  | succ steps ih =>
    obtain ⟨y, stepped, onward⟩ := ends_succ_iff.mp ended
    cases others with
    | zero =>
      have stopped := ends_zero_iff.mp again
      rw [stop?_eq_none_iff.mpr ⟨y, stepped⟩] at stopped
      cases stopped
    | succ others =>
      obtain ⟨z, steppedAgain, onwardAgain⟩ := ends_succ_iff.mp again
      obtain rfl := Except.ok.inj (stepped.symm.trans steppedAgain)
      obtain ⟨rfl, same⟩ := ih onward onwardAgain
      exact ⟨rfl, same⟩

/-- What a run comes to, it comes to from every term on its way, in the steps that are left. -/
theorem Ends.of_after {x y : σ} {first steps : Nat} {result : Except Fault α}
    (reached : system.after first x = .ok y) (ended : system.Ends x steps result) :
    ∃ rest, steps = first + rest ∧ system.Ends y rest result := by
  induction first generalizing x steps with
  | zero =>
    cases reached
    exact ⟨steps, (Nat.zero_add steps).symm, ended⟩
  | succ first ih =>
    obtain ⟨next, stepped, onward⟩ := after_succ_eq_ok_iff.mp reached
    cases steps with
    | zero =>
      have stopped := ends_zero_iff.mp ended
      rw [stop?_eq_none_iff.mpr ⟨next, stepped⟩] at stopped
      cases stopped
    | succ steps =>
      obtain ⟨same, steppedAgain, later⟩ := ends_succ_iff.mp ended
      obtain rfl := Except.ok.inj (stepped.symm.trans steppedAgain)
      obtain ⟨rest, rfl, left⟩ := ih onward later
      exact ⟨rest, by omega, left⟩

/-- A run ends within a number of steps, or makes all of them. -/
theorem ends_or_after (system : Rewriting σ α) (steps : Nat) (x : σ) :
    (∃ fewer, fewer < steps ∧ ∃ result, system.Ends x fewer result) ∨
      ∃ y, system.after steps x = .ok y := by
  induction steps generalizing x with
  | zero => exact .inr ⟨x, rfl⟩
  | succ steps ih =>
    cases stopped : system.stop? x with
    | some result => exact .inl ⟨0, Nat.succ_pos steps, result, .of_stop stopped⟩
    | none =>
      obtain ⟨y, stepped⟩ := stop?_eq_none_iff.mp stopped
      obtain ⟨fewer, less, result, ended⟩ | ⟨z, reached⟩ := ih y
      · exact .inl ⟨fewer + 1, Nat.succ_lt_succ less, result, ended.cons stepped⟩
      · exact .inr ⟨z, (after_succ_of_ok stepped steps).trans reached⟩

/-- The run from the first term that passes through the others, the last of which it comes to. -/
inductive Path (system : Rewriting σ α) : σ → List σ → σ → Prop
  | nil (x : σ) : Path system x [] x
  | cons {x y z : σ} {terms : List σ} (stepped : system.step x = .ok y)
      (onward : Path system y terms z) : Path system x (y :: terms) z

/-- Paths compose. -/
theorem Path.append {x y z : σ} {terms others : List σ} (path : system.Path x terms y)
    (onward : system.Path y others z) : system.Path x (terms ++ others) z := by
  induction path with
  | nil => exact onward
  | cons stepped _ ih => exact .cons stepped (ih onward)

theorem Path.after {x y : σ} {terms : List σ} (path : system.Path x terms y) :
    system.after terms.length x = .ok y := by
  induction path with
  | nil => rfl
  | cons stepped _ ih => exact (after_succ_of_ok stepped _).trans ih

theorem exists_path_of_after {x y : σ} {steps : Nat} (reached : system.after steps x = .ok y) :
    ∃ terms, terms.length = steps ∧ system.Path x terms y := by
  induction steps generalizing x with
  | zero =>
    cases reached
    exact ⟨[], rfl, .nil y⟩
  | succ steps ih =>
    obtain ⟨next, stepped, onward⟩ := after_succ_eq_ok_iff.mp reached
    obtain ⟨terms, rfl, path⟩ := ih onward
    exact ⟨next :: terms, rfl, .cons stepped path⟩

/-- The terms of a path, the first one included, are those after so many steps. -/
theorem Path.getElem? {x y : σ} {terms : List σ} (path : system.Path x terms y) {place : Nat}
    (within : place ≤ terms.length) :
    ∃ term, system.after place x = .ok term ∧ (x :: terms)[place]? = some term := by
  induction path generalizing place with
  | nil x =>
    obtain rfl := Nat.le_zero.mp within
    exact ⟨x, rfl, rfl⟩
  | @cons x next _ terms stepped _ ih =>
    cases place with
    | zero => exact ⟨x, rfl, rfl⟩
    | succ place =>
      obtain ⟨term, reached, listed⟩ := ih (Nat.le_of_succ_le_succ within)
      exact ⟨term, (after_succ_of_ok stepped place).trans reached, listed⟩

/-- The last term of a path is the one that it comes to. -/
theorem Path.getLast? {x y : σ} {terms : List σ} (path : system.Path x terms y) :
    (x :: terms).getLast? = some y := by
  induction path with
  | nil => rfl
  | cons _ _ ih => rwa [List.getLast?_cons_cons]

/-- One path leads from a term to where the run ends. -/
theorem Path.unique {x y z : σ} {terms others : List σ} {result other : Except Fault α}
    (path : system.Path x terms y) (stopped : system.stop? y = some result)
    (again : system.Path x others z) (stoppedAgain : system.stop? z = some other) :
    terms = others ∧ y = z := by
  induction path generalizing others with
  | nil x =>
    cases again with
    | nil => exact ⟨rfl, rfl⟩
    | cons stepped _ =>
      rw [stop?_eq_none_iff.mpr ⟨_, stepped⟩] at stopped
      cases stopped
  | cons stepped _ ih =>
    cases again with
    | nil =>
      rw [stop?_eq_none_iff.mpr ⟨_, stepped⟩] at stoppedAgain
      cases stoppedAgain
    | cons steppedAgain onward =>
      obtain rfl := Except.ok.inj (stepped.symm.trans steppedAgain)
      obtain ⟨rfl, same⟩ := ih stopped onward
      exact ⟨rfl, same⟩

/-- A run that ends comes to no term twice. -/
theorem Path.nodup {x y : σ} {terms : List σ} {result : Except Fault α}
    (path : system.Path x terms y) (stopped : system.stop? y = some result) :
    (x :: terms).Nodup := by
  induction path with
  | nil x => simp
  | @cons x next y terms stepped onward ih =>
    refine List.nodup_cons.mpr ⟨fun again => ?_, ih stopped⟩
    obtain ⟨place, listed⟩ := List.getElem?_of_mem again
    obtain ⟨inside, _⟩ := List.getElem?_eq_some_iff.mp listed
    obtain ⟨term, reached, same⟩ := onward.getElem? (Nat.le_of_lt_succ inside)
    obtain rfl : term = x := Option.some.inj (same.symm.trans listed)
    have ended : system.Ends term (terms.length + 1) result :=
      ⟨y, (Path.cons stepped onward).after, stopped⟩
    have back : system.after (place + 1) term = .ok term :=
      (after_succ_of_ok stepped place).trans reached
    obtain ⟨rest, counted, left⟩ := Ends.of_after back ended
    obtain ⟨equal, _⟩ := ended.unique left
    omega

/-- Steps and faults inside the context are steps and faults of the whole. -/
structure Context (inner : Rewriting σ α) (outer : Rewriting τ β) (fill : σ → τ) : Prop where
  step {x y : σ} : inner.step x = .ok y → outer.step (fill x) = .ok (fill y)
  fault {x : σ} {fault : Fault} : inner.value? x = none → inner.step x = .error fault →
    outer.value? (fill x) = none ∧ outer.step (fill x) = .error fault

variable {inner : Rewriting σ α} {outer : Rewriting τ β} {fill : σ → τ}

/-- A place in a term is a context when a step of the unfinished whole is a step in that place. -/
theorem Context.of_step_eq
    (unfinished : ∀ x, inner.value? x = none → outer.value? (fill x) = none)
    (step_eq : ∀ x, inner.value? x = none → outer.step (fill x) = (inner.step x).map fill) :
    Context inner outer fill where
  step {x y} stepped := by
    cases normal : inner.value? x with
    | some a => exact absurd stepped (inner.value_stops normal y)
    | none => rw [step_eq x normal, stepped, Except.map]
  fault {x fault} normal failed :=
    ⟨unfinished x normal, by rw [step_eq x normal, failed, Except.map]⟩

theorem Context.after (context : Context inner outer fill) {x y : σ} {steps : Nat}
    (reached : inner.after steps x = .ok y) : outer.after steps (fill x) = .ok (fill y) := by
  induction steps generalizing x with
  | zero =>
    cases reached
    rfl
  | succ steps ih =>
    obtain ⟨next, stepped, onward⟩ := after_succ_eq_ok_iff.mp reached
    rw [after_succ_of_ok (context.step stepped), ih onward]

theorem Context.path (context : Context inner outer fill) {x y : σ} {terms : List σ}
    (path : inner.Path x terms y) : outer.Path (fill x) (terms.map fill) (fill y) := by
  induction path with
  | nil => exact .nil _
  | cons stepped _ ih => exact .cons (context.step stepped) ih

/-- Where a run fails inside a context, the whole fails. -/
theorem Context.stop_fault (context : Context inner outer fill) {x : σ} {fault : Fault}
    (stopped : inner.stop? x = some (.error fault)) :
    outer.stop? (fill x) = some (.error fault) := by
  obtain ⟨normal, stuck⟩ := stop?_eq_error_iff.mp stopped
  obtain ⟨outerNormal, outerStuck⟩ := context.fault normal stuck
  exact stop?_of_fault outerNormal outerStuck

/-- A run that fails inside a context makes the whole fail. -/
theorem Context.ends_fault (context : Context inner outer fill) {x : σ} {steps : Nat}
    {fault : Fault} (failed : inner.Ends x steps (.error fault)) :
    outer.Ends (fill x) steps (.error fault) := by
  obtain ⟨y, reached, stopped⟩ := failed
  exact ⟨fill y, context.after reached, context.stop_fault stopped⟩

/-- A run that comes to a value inside a context leaves the value in its place. -/
theorem Context.after_value (context : Context inner outer fill) {x : σ} {steps : Nat} {a : α}
    (ended : inner.Ends x steps (.ok a)) :
    ∃ y, inner.value? y = some a ∧ outer.after steps (fill x) = .ok (fill y) := by
  obtain ⟨y, reached, stopped⟩ := ended
  exact ⟨y, stop?_eq_ok_iff.mp stopped, context.after reached⟩

end Rewriting

end Concord
