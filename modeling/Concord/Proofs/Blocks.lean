import Concord.Proofs.Cost
import Concord.Proofs.Interchange

/-! # Blocks

A block runs its statements in order, each from the environment that the one before has left, and
stops at the first that fails or that goes on forever. So where a long block is cut into two makes
no difference to what it comes to. Nor does it to what the run costs, as every joint takes one step
and one unit wherever it stands, and the two nestings of a block have as many joints.
-/

namespace Concord

namespace Strategy

variable {strategy : Strategy} {s first second : Stmt} {rest statements : List Stmt}
  {env final : Environment} {result : Result}

/-- A sequence fails with its first part, or comes to what its second part comes to from where the
first has led. -/
theorem answers_seq_iff :
    strategy.Answers (.seq first second) env result ↔
      (∃ fault, strategy.Answers first env (.error fault) ∧ result = .error fault) ∨
      ∃ middle, strategy.Answers first env (.ok middle) ∧ strategy.Answers second middle result := by
  simp only [answers_iff_yields]
  constructor
  · rintro ⟨_, ⟨before, fault, failed, _, rfl⟩ | ⟨middle, before, after, passed, ended, _⟩⟩
    · exact .inl ⟨fault, ⟨before, failed⟩, rfl⟩
    · exact .inr ⟨middle, ⟨before, passed⟩, after, ended⟩
  · rintro (⟨fault, ⟨before, failed⟩, rfl⟩ | ⟨middle, ⟨before, passed⟩, after, ended⟩)
    · exact ⟨_, .inl ⟨before, fault, failed, rfl, rfl⟩⟩
    · exact ⟨_, .inr ⟨middle, before, after, passed, ended, rfl⟩⟩

/-- A sequence goes on forever in its first part or in its second. -/
theorem diverges_seq_iff :
    strategy.Diverges (.seq first second) env .unlimited ↔
      strategy.Diverges first env .unlimited ∨
      ∃ middle, strategy.Answers first env (.ok middle) ∧
        strategy.Diverges second middle .unlimited := by
  simp only [diverges_unlimited_iff, answers_seq_iff]
  constructor
  · intro never
    by_cases settles : ∃ own, strategy.Answers first env own
    · obtain ⟨fault | middle, answer⟩ := settles
      · exact absurd (.inl ⟨fault, answer, rfl⟩) (never _)
      · exact .inr ⟨middle, answer, fun result ended => never result (.inr ⟨middle, answer, ended⟩)⟩
    · exact .inl (not_exists.mp settles)
  · rintro (forever | ⟨middle, passed, forever⟩) result
    · rintro (⟨fault, failed, _⟩ | ⟨middle, passed, _⟩)
      · exact forever _ failed
      · exact forever _ passed
    · rintro (⟨fault, failed, _⟩ | ⟨again, passedAgain, ended⟩)
      · cases passed.unique failed
      · cases passed.unique passedAgain
        exact forever result ended

theorem answers_skip_iff : strategy.Answers .skip env result ↔ result = .ok env := by
  rw [answers_iff_yields]
  constructor
  · rintro ⟨_, _, ended⟩
    exact ended
  · rintro rfl
    exact ⟨1, rfl, rfl⟩

namespace SameOutcome

theorem skip_seq (strategy : Strategy) (s : Stmt) : strategy.SameOutcome (.seq .skip s) s := by
  refine sameOutcome_of_answers fun env result => ?_
  rw [answers_seq_iff]
  constructor
  · rintro (⟨fault, failed, _⟩ | ⟨middle, passed, ended⟩)
    · cases answers_skip_iff.mp failed
    · cases answers_skip_iff.mp passed
      exact ended
  · intro ended
    exact .inr ⟨env, answers_skip_iff.mpr rfl, ended⟩

theorem seq_skip (strategy : Strategy) (s : Stmt) : strategy.SameOutcome (.seq s .skip) s := by
  refine sameOutcome_of_answers fun env result => ?_
  rw [answers_seq_iff]
  constructor
  · rintro (⟨fault, failed, rfl⟩ | ⟨middle, passed, ended⟩)
    · exact failed
    · obtain rfl := answers_skip_iff.mp ended
      exact passed
  · intro ended
    cases result with
    | error fault => exact .inl ⟨fault, ended, rfl⟩
    | ok final => exact .inr ⟨final, ended, answers_skip_iff.mpr rfl⟩

theorem seq_assoc (strategy : Strategy) (first second third : Stmt) :
    strategy.SameOutcome (.seq (.seq first second) third) (.seq first (.seq second third)) := by
  refine sameOutcome_of_answers fun env result => ?_
  constructor
  · intro ended
    obtain ⟨fault, failed, rfl⟩ | ⟨middle, passed, ended⟩ := answers_seq_iff.mp ended
    · obtain ⟨_, failed, ⟨⟩⟩ | ⟨next, passed, failed⟩ := answers_seq_iff.mp failed
      · exact answers_seq_iff.mpr (.inl ⟨fault, failed, rfl⟩)
      · exact answers_seq_iff.mpr
          (.inr ⟨next, passed, answers_seq_iff.mpr (.inl ⟨fault, failed, rfl⟩)⟩)
    · obtain ⟨_, _, ⟨⟩⟩ | ⟨next, started, passed⟩ := answers_seq_iff.mp passed
      exact answers_seq_iff.mpr
        (.inr ⟨next, started, answers_seq_iff.mpr (.inr ⟨middle, passed, ended⟩)⟩)
  · intro ended
    obtain ⟨fault, failed, rfl⟩ | ⟨next, started, ended⟩ := answers_seq_iff.mp ended
    · exact answers_seq_iff.mpr
        (.inl ⟨fault, answers_seq_iff.mpr (.inl ⟨fault, failed, rfl⟩), rfl⟩)
    · obtain ⟨fault, failed, rfl⟩ | ⟨middle, passed, ended⟩ := answers_seq_iff.mp ended
      · exact answers_seq_iff.mpr
          (.inl ⟨fault, answers_seq_iff.mpr (.inr ⟨next, started, failed⟩), rfl⟩)
      · exact answers_seq_iff.mpr
          (.inr ⟨middle, answers_seq_iff.mpr (.inr ⟨next, started, passed⟩), ended⟩)

/-- A block starts with its first statement, also when there is no other. -/
theorem block_cons (strategy : Strategy) (s : Stmt) (rest : List Stmt) :
    strategy.SameOutcome (.block (s :: rest)) (.seq s (.block rest)) := by
  cases rest with
  | nil => exact (seq_skip strategy s).symm
  | cons next others => exact .refl strategy _

/-- The blocks on the two sides of a cut make up the whole. -/
theorem block_append (strategy : Strategy) (statements others : List Stmt) :
    strategy.SameOutcome (.block (statements ++ others))
      (.seq (.block statements) (.block others)) := by
  induction statements with
  | nil => exact (skip_seq strategy (.block others)).symm
  | cons s rest ih =>
    calc strategy.SameOutcome (.block (s :: (rest ++ others))) (.seq s (.block (rest ++ others))) :=
          block_cons strategy s (rest ++ others)
      strategy.SameOutcome _ (.seq s (.seq (.block rest) (.block others))) :=
        (refl strategy s).seq ih
      strategy.SameOutcome _ (.seq (.seq s (.block rest)) (.block others)) :=
        (seq_assoc strategy s (.block rest) (.block others)).symm
      strategy.SameOutcome _ (.seq (.block (s :: rest)) (.block others)) :=
        (block_cons strategy s rest).symm.seq (refl strategy (.block others))

end SameOutcome

/-- The statements run in order come to the result: each one starts from where the one before has
led, and the first that fails is the last to run. -/
inductive AnswersInOrder (strategy : Strategy) : List Stmt → Environment → Result → Prop where
  | nil (env : Environment) : AnswersInOrder strategy [] env (.ok env)
  | fault {s : Stmt} {rest : List Stmt} {env : Environment} {fault : Fault}
      (failed : strategy.Answers s env (.error fault)) :
      AnswersInOrder strategy (s :: rest) env (.error fault)
  | cons {s : Stmt} {rest : List Stmt} {env next : Environment} {result : Result}
      (passed : strategy.Answers s env (.ok next))
      (onward : AnswersInOrder strategy rest next result) :
      AnswersInOrder strategy (s :: rest) env result

/-- The statements run in order come to one that goes on forever. -/
inductive DivergesInOrder (strategy : Strategy) : List Stmt → Environment → Prop where
  | here {s : Stmt} {rest : List Stmt} {env : Environment}
      (forever : strategy.Diverges s env .unlimited) : DivergesInOrder strategy (s :: rest) env
  | later {s : Stmt} {rest : List Stmt} {env next : Environment}
      (passed : strategy.Answers s env (.ok next)) (onward : DivergesInOrder strategy rest next) :
      DivergesInOrder strategy (s :: rest) env

theorem answersInOrder_cons_iff :
    strategy.AnswersInOrder (s :: rest) env result ↔
      (∃ fault, strategy.Answers s env (.error fault) ∧ result = .error fault) ∨
      ∃ next, strategy.Answers s env (.ok next) ∧ strategy.AnswersInOrder rest next result := by
  constructor
  · intro ordered
    cases ordered with
    | fault failed => exact .inl ⟨_, failed, rfl⟩
    | cons passed onward => exact .inr ⟨_, passed, onward⟩
  · rintro (⟨fault, failed, rfl⟩ | ⟨next, passed, onward⟩)
    · exact .fault failed
    · exact .cons passed onward

theorem divergesInOrder_cons_iff :
    strategy.DivergesInOrder (s :: rest) env ↔
      strategy.Diverges s env .unlimited ∨
      ∃ next, strategy.Answers s env (.ok next) ∧ strategy.DivergesInOrder rest next := by
  constructor
  · intro ordered
    cases ordered with
    | here forever => exact .inl forever
    | later passed onward => exact .inr ⟨_, passed, onward⟩
  · rintro (forever | ⟨next, passed, onward⟩)
    · exact .here forever
    · exact .later passed onward

/-- A block comes to what its statements come to in order. -/
theorem answers_block_iff :
    strategy.Answers (.block statements) env result ↔
      strategy.AnswersInOrder statements env result := by
  induction statements generalizing env with
  | nil =>
    rw [Stmt.block_nil, answers_skip_iff]
    constructor
    · rintro rfl
      exact .nil env
    · rintro ⟨⟩
      rfl
  | cons s rest ih =>
    rw [(SameOutcome.block_cons strategy s rest env).1, answers_seq_iff, answersInOrder_cons_iff]
    simp only [ih]

/-- And it goes on forever when one of its statements does, in order. -/
theorem diverges_block_iff :
    strategy.Diverges (.block statements) env .unlimited ↔
      strategy.DivergesInOrder statements env := by
  induction statements generalizing env with
  | nil =>
    rw [Stmt.block_nil, diverges_unlimited_iff]
    constructor
    · intro never
      exact absurd (answers_skip_iff.mpr rfl) (never (.ok env))
    · rintro ⟨⟩
  | cons s rest ih =>
    rw [(SameOutcome.block_cons strategy s rest env).2, diverges_seq_iff, divergesInOrder_cons_iff]
    simp only [ih]

/-- What the statements cost that lead from the one environment to the other in order: for each of
them its steps and its units. -/
inductive CostsInOrder : List Stmt → Environment → List (ℕ × ℕ) → Environment → Prop where
  | nil (env : Environment) : CostsInOrder [] env [] env
  | cons {s : Stmt} {rest : List Stmt} {env next final : Environment} {steps units : ℕ}
      {costs : List (ℕ × ℕ)} (cost : Cost s env next steps units)
      (onward : CostsInOrder rest next costs final) :
      CostsInOrder (s :: rest) env ((steps, units) :: costs) final

/-- The sum with one more for each joint between two parts. -/
def withJoints (parts : List ℕ) : ℕ := parts.sum + (parts.length - 1)

/-- Putting lists of parts together makes one more joint. -/
theorem withJoints_append {parts others : List ℕ} (some_part : parts ≠ [])
    (some_other : others ≠ []) :
    withJoints (parts ++ others) = withJoints parts + withJoints others + 1 := by
  have here := List.length_pos_iff.mpr some_part
  have there := List.length_pos_iff.mpr some_other
  simp only [withJoints, List.sum_append, List.length_append]
  omega

/-- Two parts that cost their own pieces and joints cost, in sequence, all pieces and joints. -/
theorem Cost.seq_append {before after : List (ℕ × ℕ)} {middle : Environment}
    (some_before : before ≠ []) (some_after : after ≠ [])
    (passed : Cost first env middle (withJoints (before.map Prod.fst))
      (withJoints (before.map Prod.snd)))
    (ended : Cost second middle final (withJoints (after.map Prod.fst))
      (withJoints (after.map Prod.snd))) :
    Cost (.seq first second) env final (withJoints ((before ++ after).map Prod.fst))
      (withJoints ((before ++ after).map Prod.snd)) := by
  simp only [List.map_append]
  rw [withJoints_append (by simpa) (by simpa), withJoints_append (by simpa) (by simpa)]
  exact passed.seq ended

theorem AnswersInOrder.costs (ordered : strategy.AnswersInOrder statements env (.ok final)) :
    ∃ costs, CostsInOrder statements env costs final := by
  generalize ending : (.ok final : Result) = result at ordered
  induction ordered with
  | nil env =>
    cases ending
    exact ⟨[], .nil final⟩
  | fault _ => cases ending
  | cons passed _ ih =>
    obtain ⟨steps, units, cost⟩ := passed.cost
    obtain ⟨costs, onward⟩ := ih ending
    exact ⟨(steps, units) :: costs, .cons cost onward⟩

namespace CostsInOrder

variable {costs : List (ℕ × ℕ)}

/-- A cut through the statements is one through their costs. -/
theorem exists_of_append {others : List Stmt}
    (ordered : CostsInOrder (statements ++ others) env costs final) :
    ∃ before middle after, costs = before ++ after ∧ CostsInOrder statements env before middle ∧
      CostsInOrder others middle after final := by
  induction statements generalizing env costs with
  | nil => exact ⟨[], env, costs, rfl, .nil env, ordered⟩
  | cons s rest ih =>
    obtain _ | ⟨cost, onward⟩ := ordered
    obtain ⟨before, middle, after, rfl, passed, ended⟩ := ih onward
    exact ⟨_ :: before, middle, after, rfl, .cons cost passed, ended⟩

theorem ne_nil (ordered : CostsInOrder statements env costs final)
    (some_statement : statements ≠ []) : costs ≠ [] := by
  cases ordered with
  | nil => exact absurd rfl some_statement
  | cons cost onward => exact List.cons_ne_nil _ _

/-- A block costs what its statements cost, and one step and one unit for each joint. -/
theorem block (some_statement : statements ≠ [])
    (ordered : CostsInOrder statements env costs final) :
    Cost (.block statements) env final (withJoints (costs.map Prod.fst))
      (withJoints (costs.map Prod.snd)) := by
  induction ordered with
  | nil => exact absurd rfl some_statement
  | @cons s rest env next final steps units costs cost onward ih =>
    cases rest with
    | nil =>
      cases onward
      exact cost
    | cons next others =>
      have some_left := List.cons_ne_nil next others
      exact Cost.seq_append (List.cons_ne_nil _ []) (onward.ne_nil some_left) cost (ih some_left)

end CostsInOrder

/-- A block comes to what its statements come to in order, and cutting it in two does not change
that. When both blocks have statements and come to an environment, the cut changes neither the gas
nor the steps: they are those of the statements, and one for each joint between them. -/
theorem blocks_run_in_order (strategy : Strategy) :
    (∀ statements env,
      (∀ result, strategy.Answers (.block statements) env result ↔
        strategy.AnswersInOrder statements env result) ∧
      (strategy.Diverges (.block statements) env .unlimited ↔
        strategy.DivergesInOrder statements env)) ∧
    (∀ first second, strategy.SameOutcome (.block (first ++ second))
      (.seq (.block first) (.block second))) ∧
    ∀ first second : List Stmt, first ≠ [] → second ≠ [] → ∀ env final,
      strategy.Answers (.block (first ++ second)) env (.ok final) →
      ∃ costs, CostsInOrder (first ++ second) env costs final ∧
        Cost (.block (first ++ second)) env final (withJoints (costs.map Prod.fst))
          (withJoints (costs.map Prod.snd)) ∧
        Cost (.seq (.block first) (.block second)) env final (withJoints (costs.map Prod.fst))
          (withJoints (costs.map Prod.snd)) ∧
        ∀ gas result left, strategy.Returns (.block (first ++ second)) env gas result left ↔
          strategy.Returns (.seq (.block first) (.block second)) env gas result left := by
  refine ⟨fun _ _ => ⟨fun _ => answers_block_iff, diverges_block_iff⟩,
    SameOutcome.block_append strategy, ?_⟩
  intro first second some_first some_second env final answer
  obtain ⟨costs, ordered⟩ := (answers_block_iff.mp answer).costs
  have whole := ordered.block (List.append_ne_nil_of_left_ne_nil some_first second)
  obtain ⟨before, middle, after, rfl, passed, ended⟩ := ordered.exists_of_append
  have parts := Cost.seq_append (passed.ne_nil some_first) (ended.ne_nil some_second)
    (passed.block some_first) (ended.block some_second)
  exact ⟨_, ordered, whole, parts, fun _ _ _ => whole.returns_iff parts⟩

/-- `x = 1; do-nothing; do-nothing; y = x` takes six steps and seven units, of which three are for
joints, and so does `x = 1; do-nothing` before `do-nothing; y = x`. -/
theorem blocks_run_in_order_cut_in_two :
    ∃ final,
      Cost (.block [.assign "x" (.ofInt 1), .skip, .skip, .assign "y" (.var "x")]) .empty final
        6 7 ∧
      Cost (.seq (.block [.assign "x" (.ofInt 1), .skip]) (.block [.skip, .assign "y" (.var "x")]))
        .empty final 6 7 := by
  let whole := Stmt.block [.assign "x" (.ofInt 1), .skip, .skip, .assign "y" (.var "x")]
  obtain ⟨final, takes, run⟩ :
      ∃ final, whole.Takes .empty 6 final ∧ whole.Yields .empty 7 (.ok final) := by
    refine ⟨_, ⟨_, 1, 4, rfl, ⟨rfl, _, rfl, rfl⟩, _, 0, 3, rfl, ⟨rfl, rfl⟩, _, 0, 2, rfl, ⟨rfl, rfl⟩,
      rfl, _, rfl, rfl⟩, ?_⟩
    exact .inr ⟨_, 1, 5, ⟨rfl, rfl⟩, .inr ⟨_, 1, 3, ⟨rfl, rfl⟩, .inr ⟨_, 1, 1, ⟨rfl, rfl⟩, ⟨rfl, rfl⟩,
      rfl⟩, rfl⟩, rfl⟩
  obtain ⟨_, _, cut⟩ := blocks_run_in_order bigStep
  obtain ⟨costs, _, here, there, _⟩ :=
    cut [.assign "x" (.ofInt 1), .skip] [.skip, .assign "y" (.var "x")] (List.cons_ne_nil _ _)
      (List.cons_ne_nil _ _) .empty final (answers_iff_yields.mpr ⟨7, run⟩)
  have bill : bigStep.Bill whole .empty 7 (.ok final) := run
  have steps : withJoints (costs.map Prod.fst) = 6 := ((here.law 6).mp takes).symm
  have units : withJoints (costs.map Prod.snd) = 7 := by
    exact_mod_cast here.evaluation.unique bill.threshold
  rw [steps, units] at here there
  exact ⟨final, here, there⟩

end Strategy

end Concord
