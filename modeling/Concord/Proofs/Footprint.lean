import Concord.Environment.Lemmas
import Concord.Proofs.Simulation

/-! # The footprint of a program

A statement has to do with the variables in it and with no others. It reads the environment at the
variables of its expressions, and all that it does to the environment is to put in bindings of the
variables that it assigns. `Stmt.reduce_alike` says so of one step, for two environments at once:
where they agree on what is read, both steps fail alike, or both put in the same bindings and leave
the same statement. No step brings in a variable that was not there before.
-/

namespace Concord

private theorem append_subset_append {names more others wider : List String} (subset : names ⊆ more)
    (also : others ⊆ wider) : names ++ others ⊆ more ++ wider :=
  List.append_subset.mpr
    ⟨List.subset_append_of_subset_left _ subset, List.subset_append_of_subset_right _ also⟩

def Expr.reads : Expr → List String
  | literal _ => []
  | var name => [name]
  | binary _ left right => left.reads ++ right.reads

def Stmt.reads : Stmt → List String
  | assign _ value => value.reads
  | skip => []
  | ifThenElse condition consequence alternative =>
    condition.reads ++ (consequence.reads ++ alternative.reads)
  | seq first second => first.reads ++ second.reads
  | whileDo condition body => condition.reads ++ body.reads

/-- The variables that a statement assigns. -/
def Stmt.writes : Stmt → List String
  | assign name _ => [name]
  | skip => []
  | ifThenElse _ consequence alternative => consequence.writes ++ alternative.writes
  | seq first second => first.writes ++ second.writes
  | whileDo _ body => body.writes

namespace Environment

/-- Both environments give each of the names the same value, or both give it none. -/
def AgreeOn (names : List String) (left right : Environment) : Prop :=
  ∀ name ∈ names, left.get? name = right.get? name

/-- The environment with a list of bindings put in, one after the other. -/
def overwrite (env : Environment) (updates : List (String × Value)) : Environment :=
  updates.foldl (fun env binding => env.insert binding.1 binding.2) env

theorem overwrite_append (env : Environment) (first second : List (String × Value)) :
    env.overwrite (first ++ second) = (env.overwrite first).overwrite second :=
  List.foldl_append

namespace AgreeOn

variable {names fewer : List String} {left right : Environment}

theorem symm (agree : AgreeOn names left right) : AgreeOn names right left :=
  fun name member => (agree name member).symm

theorem mono (agree : AgreeOn names left right) (subset : fewer ⊆ names) :
    AgreeOn fewer left right :=
  fun name member => agree name (subset member)

theorem append_iff {others : List String} :
    AgreeOn (names ++ others) left right ↔
      AgreeOn names left right ∧ AgreeOn others left right := by
  simp only [AgreeOn, List.forall_mem_append]

/-- Environments that agree still do with the same binding put in. -/
theorem insert (agree : AgreeOn names left right) (name : String) (value : Value) :
    AgreeOn names (left.insert name value) (right.insert name value) := by
  intro other member
  rw [get?_insert, get?_insert, agree other member]

theorem overwrite (agree : AgreeOn names left right) (updates : List (String × Value)) :
    AgreeOn names (left.overwrite updates) (right.overwrite updates) := by
  induction updates generalizing left right with
  | nil => exact agree
  | cons binding rest ih => exact ih (agree.insert binding.1 binding.2)

end AgreeOn

end Environment

open Environment (AgreeOn)

/-- All bindings are for the given names. -/
def Within (names : List String) (updates : List (String × Value)) : Prop :=
  ∀ binding ∈ updates, binding.1 ∈ names

theorem Within.mono {names more : List String} {updates : List (String × Value)}
    (within : Within names updates) (subset : names ⊆ more) : Within more updates :=
  fun binding member => subset (within binding member)

theorem Within.append {names : List String} {first second : List (String × Value)}
    (within : Within names first) (also : Within names second) : Within names (first ++ second) :=
  List.forall_mem_append.mpr ⟨within, also⟩

theorem Within.nil (names : List String) : Within names [] := by simp [Within]

namespace Expr

variable {left right : Environment}

/-- The value of an expression depends on its variables only. -/
theorem eval_congr {e : Expr} (agree : AgreeOn e.reads left right) :
    e.eval left = e.eval right := by
  induction e with
  | literal value => rfl
  | var name =>
    have same : left.get? name = right.get? name := agree name (List.mem_singleton_self name)
    simp only [eval, Environment.lookup, same]
  | binary op first second ihFirst ihSecond =>
    obtain ⟨agreeFirst, agreeSecond⟩ := AgreeOn.append_iff.mp agree
    simp only [eval, ihFirst agreeFirst, ihSecond agreeSecond]

theorem holds_congr {condition : Expr} (agree : AgreeOn condition.reads left right) :
    condition.holds left = condition.holds right := by
  rw [holds, holds, eval_congr agree]

/-- And so does its step. -/
theorem reduce_congr {e : Expr} (agree : AgreeOn e.reads left right) :
    e.reduce left = e.reduce right := by
  induction e with
  | literal value => rfl
  | var name =>
    have same : left.get? name = right.get? name := agree name (List.mem_singleton_self name)
    simp only [reduce, Environment.lookup, same]
  | binary op first second ihFirst ihSecond =>
    obtain ⟨agreeFirst, agreeSecond⟩ := AgreeOn.append_iff.mp agree
    by_cases openFirst : first.isReducible = true
    · rw [reduce_left openFirst, reduce_left openFirst, ihFirst agreeFirst]
    · obtain ⟨a, rfl⟩ := (isReducible_eq_false_iff first).mp (by simpa using openFirst)
      by_cases openSecond : second.isReducible = true
      · rw [reduce_right openSecond, reduce_right openSecond, ihSecond agreeSecond]
      · obtain ⟨b, rfl⟩ := (isReducible_eq_false_iff second).mp (by simpa using openSecond)
        rfl

/-- A step brings in no variable. -/
theorem reads_of_reduce {e next : Expr} {env : Environment} (stepped : e.reduce env = .ok next) :
    next.reads ⊆ e.reads := by
  induction e generalizing next with
  | literal value => cases stepped
  | var name =>
    obtain ⟨value, _, rfl⟩ := map_eq_ok_iff.mp stepped
    exact List.nil_subset _
  | binary op first second ihFirst ihSecond =>
    obtain ⟨reduct, reduced, rfl⟩ | ⟨a, reduct, rfl, reduced, rfl⟩ | ⟨a, b, v, rfl, rfl, _, rfl⟩ :=
      reduce_binary_cases stepped
    · exact append_subset_append (ihFirst reduced) (.refl _)
    · exact append_subset_append (.refl _) (ihSecond reduced)
    · exact List.nil_subset _

end Expr

namespace Stmt

/-- What a step of the statement comes to in both environments: the same fault, or the same
statement of the same variables, with the same bindings put in of variables that are assigned. -/
inductive StepsAlike (s : Stmt) (left right : Environment) : Prop where
  | fault (fault : Fault) (failedLeft : s.reduce left = .error fault)
      (failedRight : s.reduce right = .error fault)
  | step (next : Stmt) (updates : List (String × Value)) (within : Within s.writes updates)
      (reads : next.reads ⊆ s.reads) (writes : next.writes ⊆ s.writes)
      (steppedLeft : s.reduce left = .ok (next, left.overwrite updates))
      (steppedRight : s.reduce right = .ok (next, right.overwrite updates))

variable {left right : Environment}

/-- Where a statement makes the step of one of its expressions, the environments stay as they
are. -/
private theorem stepsAlike_of_expr {s : Stmt} {e : Expr} (fill : Expr → Stmt)
    (agree : AgreeOn e.reads left right)
    (stepLeft : s.reduce left = (e.reduce left).map fun next => (fill next, left))
    (stepRight : s.reduce right = (e.reduce right).map fun next => (fill next, right))
    (reads : ∀ next, next.reads ⊆ e.reads → (fill next).reads ⊆ s.reads)
    (writes : ∀ next, (fill next).writes = s.writes) : s.StepsAlike left right := by
  rw [← Expr.reduce_congr agree] at stepRight
  cases reduced : e.reduce left with
  | error fault =>
    rw [reduced] at stepLeft stepRight
    exact .fault fault stepLeft stepRight
  | ok next =>
    rw [reduced] at stepLeft stepRight
    have kept : next.reads ⊆ e.reads := Expr.reads_of_reduce reduced
    exact .step (fill next) [] (.nil _) (reads next kept) (writes next ▸ List.Subset.refl _)
      stepLeft stepRight

/-- In environments that agree on what it reads, a statement makes the same step. -/
theorem reduce_alike {s : Stmt} (agree : AgreeOn s.reads left right) :
    s.StepsAlike left right := by
  induction s with
  | assign name value =>
    by_cases reducible : value.isReducible = true
    · exact stepsAlike_of_expr (assign name) agree (reduce_assign reducible name left)
        (reduce_assign reducible name right) (fun _ subset => subset) (fun _ => rfl)
    · obtain ⟨v, rfl⟩ := (Expr.isReducible_eq_false_iff value).mp (by simpa using reducible)
      have within : Within [name] [(name, v)] := by simp [Within]
      exact .step skip [(name, v)] within (List.nil_subset _) (List.nil_subset _) rfl rfl
  | skip => exact .fault _ rfl rfl
  | ifThenElse condition consequence alternative _ _ =>
    obtain ⟨agreeCondition, _⟩ := AgreeOn.append_iff.mp agree
    by_cases reducible : condition.isReducible = true
    · exact stepsAlike_of_expr (ifThenElse · consequence alternative) agreeCondition
        (reduce_ifThenElse reducible _ _ left) (reduce_ifThenElse reducible _ _ right)
        (fun _ subset => append_subset_append subset (.refl _)) (fun _ => rfl)
    · obtain ⟨v, rfl⟩ := (Expr.isReducible_eq_false_iff condition).mp (by simpa using reducible)
      cases chosen : v.asCondition with
      | error fault =>
        refine .fault fault ?_ ?_ <;> rw [reduce_branch, chosen] <;> rfl
      | ok truth =>
        refine .step (if truth then consequence else alternative) [] (.nil _) ?_ ?_ ?_ ?_
        · cases truth <;> simp [reads]
        · cases truth <;> simp [writes]
        all_goals
          rw [reduce_branch, chosen]
          rfl
  | seq first second ihFirst _ =>
    obtain ⟨agreeFirst, _⟩ := AgreeOn.append_iff.mp agree
    by_cases reducible : first.isReducible = true
    · have stepLeft := reduce_seq reducible second left
      have stepRight := reduce_seq reducible second right
      cases ihFirst agreeFirst with
      | fault fault failedLeft failedRight =>
        rw [failedLeft] at stepLeft
        rw [failedRight] at stepRight
        exact .fault fault stepLeft stepRight
      | step next updates within reads writes steppedLeft steppedRight =>
        rw [steppedLeft] at stepLeft
        rw [steppedRight] at stepRight
        exact .step (next.seq second) updates (within.mono (List.subset_append_left _ _))
          (append_subset_append reads (.refl _)) (append_subset_append writes (.refl _))
          stepLeft stepRight
    · obtain rfl := (isReducible_eq_false_iff first).mp (by simpa using reducible)
      exact .step second [] (.nil _) (List.subset_append_right _ _)
        (List.subset_append_right _ _) rfl rfl
  | whileDo condition body _ =>
    refine .step (ifThenElse condition (seq body (whileDo condition body)) skip) [] (.nil _)
      ?_ ?_ rfl rfl
    · simp [reads]
    · simp [writes]

end Stmt

end Concord
