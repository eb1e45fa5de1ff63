import Concord.Proofs.Lockstep
import Concord.Proofs.Session

/-! # Terms that cannot be reduced

Reduction refuses a term that is in normal form, and does so with a fault that names the term. Every
other term makes a step or shows a fault of the program. No strategy asks for a step of a normal
form, so a run fails with a fault of the program or with the exhaustion of its budget:
`Machine.run_fault`, `Stmt.eval_run_fault` and `Stmt.meaning_run_fault`.
-/

namespace Concord

namespace Expr

variable {env : Environment}

/-- An expression that can be reduced fails with a fault of its own. -/
theorem reduce_fault {e : Expr} {fault : Fault} (reducible : e.isReducible = true)
    (failed : e.reduce env = .error fault) : fault.OfProgram :=
  eval_fault (eval_of_reduce_fault reducible failed)

/-- A literal is all that is refused as irreducible, under its own text. -/
theorem reduce_eq_irreducible_iff {e : Expr} {term : String} :
    e.reduce env = .error (.irreducible term) ↔ (∃ value, e = literal value) ∧ term = e.text := by
  constructor
  · intro refused
    cases reducible : e.isReducible with
    | true => cases reduce_fault reducible refused
    | false =>
      obtain ⟨value, rfl⟩ := (isReducible_eq_false_iff e).mp reducible
      cases refused
      exact ⟨⟨value, rfl⟩, rfl⟩
  · rintro ⟨⟨value, rfl⟩, rfl⟩
    rfl

end Expr

namespace Stmt

variable {env : Environment}

/-- A statement that can be reduced fails with a fault of its own. -/
theorem reduce_fault {s : Stmt} {fault : Fault} (reducible : s.isReducible = true)
    (failed : s.reduce env = .error fault) : fault.OfProgram := by
  obtain ⟨units, run⟩ := yields_of_reduce_fault reducible failed
  exact run.fault

/-- `do-nothing` is all that is refused as irreducible, under its own text. -/
theorem reduce_eq_irreducible_iff {s : Stmt} {term : String} :
    s.reduce env = .error (.irreducible term) ↔ s = skip ∧ term = s.text := by
  constructor
  · intro refused
    cases reducible : s.isReducible with
    | true => cases reduce_fault reducible refused
    | false =>
      obtain rfl := (isReducible_eq_false_iff s).mp reducible
      cases refused
      exact ⟨rfl, rfl⟩
  · rintro ⟨rfl, rfl⟩
    rfl

end Stmt

/-- What a run can fail with that has the given gas: a fault of its program, or its limit. -/
def Fault.OfRun (gas : Gas) (fault : Fault) : Prop :=
  fault.OfProgram ∨ ∃ limit, gas.limit = some limit ∧ fault = .stepLimitExceeded limit

theorem Fault.OfRun.ne_irreducible {gas : Gas} {fault : Fault} (ofRun : fault.OfRun gas)
    (term : String) : fault ≠ .irreducible term := by
  rintro rfl
  obtain own | ⟨limit, _, same⟩ := ofRun
  · cases own
  · cases same

/-- Whatever the machine has done before, its run reduces nothing that is in normal form. -/
theorem Machine.run_fault {fuel : Nat} {machine left : Machine} {trace after : Trace}
    {fault : Fault} (ran : machine.run fuel trace = some (.error fault, left, after)) :
    fault.OfRun machine.gas := by
  obtain ⟨reductions, last, _, _, uses, reducible, stepped⟩ := progress_of_finish ran
  obtain ⟨_, refused | failed⟩ := step_eq_error stepped
  · obtain ⟨limit, limited, _, same⟩ := (Gas.check_eq_error_iff _ _).mp refused
    rw [Gas.spend_limit, uses] at limited
    exact .inr ⟨limit, limited, same⟩
  · exact .inl (Stmt.reduce_fault reducible failed)

/-- Evaluation reduces nothing at all. -/
theorem Stmt.eval_run_fault {fuel : Nat} {s : Stmt} {env : Environment} {meter left : Meter}
    {fault : Fault} (ran : (s.eval fuel env).run meter = some (.error fault, left)) :
    fault.OfRun meter.gas := by
  obtain ⟨_, _, yields, paid⟩ := Stmt.exists_pay_of_eval ran
  obtain ⟨_, own⟩ | ⟨limit, limited, exhausted⟩ := Gas.pay_eq_some paid
  · exact .inl (yields _ own).fault
  · cases exhausted
    exact .inr ⟨limit, limited, rfl⟩

theorem Stmt.meaning_run_fault {fuel : Nat} {s : Stmt} {env : Environment} {meter left : Meter}
    {fault : Fault} (ran : (s.meaning.apply fuel env).run meter = some (.error fault, left)) :
    fault.OfRun meter.gas := by
  obtain ⟨_, evaluated, _⟩ := Stmt.exists_eval_of_meaning ran
  exact Stmt.eval_run_fault evaluated

/-- Only normal forms are refused as irreducible: literals and `do-nothing`, each under its own
text. Any other term makes a step or fails with a fault of the program. And no run comes to such a
refusal: not the run of a machine in whatever state, and neither evaluation nor meaning, under any
gas. -/
theorem irreducible_never_escapes :
    (∀ (e : Expr) env term, e.reduce env = .error (.irreducible term) ↔
      (∃ value, e = .literal value) ∧ term = e.text) ∧
    (∀ (s : Stmt) env term, s.reduce env = .error (.irreducible term) ↔
      s = .skip ∧ term = s.text) ∧
    (∀ (e : Expr) env, (∃ value, e = .literal value) ∨ (∃ next, e.reduce env = .ok next) ∨
      ∃ fault, e.reduce env = .error fault ∧ fault.OfProgram) ∧
    (∀ (s : Stmt) env, s = .skip ∨ (∃ next, s.reduce env = .ok next) ∨
      ∃ fault, s.reduce env = .error fault ∧ fault.OfProgram) ∧
    (∀ fuel (machine : Machine) trace result left after,
      machine.run fuel trace = some (result, left, after) →
        ∀ term, result ≠ .error (.irreducible term)) ∧
    (∀ fuel (s : Stmt) env meter result left,
      (s.eval fuel env).run meter = some (result, left) →
        ∀ term, result ≠ .error (.irreducible term)) ∧
    ∀ fuel (s : Stmt) env meter result left,
      (s.meaning.apply fuel env).run meter = some (result, left) →
        ∀ term, result ≠ .error (.irreducible term) := by
  refine ⟨fun _ _ _ => Expr.reduce_eq_irreducible_iff, fun _ _ _ => Stmt.reduce_eq_irreducible_iff,
    ?_, ?_, ?_, ?_, ?_⟩
  · intro e env
    cases reducible : e.isReducible with
    | false => exact .inl ((Expr.isReducible_eq_false_iff e).mp reducible)
    | true =>
      cases stepped : e.reduce env with
      | ok next => exact .inr (.inl ⟨next, rfl⟩)
      | error fault => exact .inr (.inr ⟨fault, rfl, Expr.reduce_fault reducible stepped⟩)
  · intro s env
    cases reducible : s.isReducible with
    | false => exact .inl ((Stmt.isReducible_eq_false_iff s).mp reducible)
    | true =>
      cases stepped : s.reduce env with
      | ok next => exact .inr (.inl ⟨next, rfl⟩)
      | error fault => exact .inr (.inr ⟨fault, rfl, Stmt.reduce_fault reducible stepped⟩)
  · rintro fuel machine trace _ left after ran term rfl
    exact (Machine.run_fault ran).ne_irreducible term rfl
  · rintro fuel s env meter _ left ran term rfl
    exact (Stmt.eval_run_fault ran).ne_irreducible term rfl
  · rintro fuel s env meter _ left ran term rfl
    exact (Stmt.meaning_run_fault ran).ne_irreducible term rfl

/-- A machine at rest refuses a step as irreducible, but its run ends in order. Evaluation of its
statement without gas fails with the budget, and so does the statement's meaning. -/
theorem irreducible_never_escapes_at_rest :
    let rest : Machine := { statement := .skip, environment := .empty }
    rest.step.1 = .error (.irreducible "do-nothing") ∧
    (∃ result left after, rest.run 1 {} = some (result, left, after) ∧
      result ≠ .error (.irreducible "do-nothing")) ∧
    (∃ result left, (Stmt.skip.eval 0 .empty).run { gas := .limited 0 } = some (result, left) ∧
      result ≠ .error (.irreducible "do-nothing")) ∧
    ∃ result left, (Stmt.skip.meaning.apply 0 .empty).run { gas := .limited 0 } =
      some (result, left) ∧ result ≠ .error (.irreducible "do-nothing") := by
  intro rest
  obtain ⟨_, refuses, _, _, runs, evaluates, applies⟩ := irreducible_never_escapes
  have refused := (refuses .skip .empty "do-nothing").mpr ⟨rfl, rfl⟩
  obtain ⟨_, _, _, ran⟩ : ∃ result left after, rest.run 1 {} = some (result, left, after) :=
    ⟨_, _, _, rfl⟩
  obtain ⟨_, _, evaluated⟩ : ∃ result left,
      (Stmt.skip.eval 0 .empty).run { gas := .limited 0 } = some (result, left) :=
    ⟨_, _, by rw [Stmt.eval_skip]; rfl⟩
  obtain ⟨_, _, applied⟩ : ∃ result left,
      (Stmt.skip.meaning.apply 0 .empty).run { gas := .limited 0 } = some (result, left) :=
    ⟨_, _, rfl⟩
  have stepped : rest.step = (_, _) :=
    Machine.step_of_fault (Gas.check_of_unlimited rfl) refused
  exact ⟨congrArg Prod.fst stepped, ⟨_, _, _, ran, runs _ _ _ _ _ _ ran _⟩,
    ⟨_, _, evaluated, evaluates _ _ _ _ _ _ evaluated _⟩,
    ⟨_, _, applied, applies _ _ _ _ _ _ applied _⟩⟩

end Concord
