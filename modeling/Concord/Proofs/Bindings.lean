import Concord.Environment.Lemmas
import Mathlib.Data.List.Basic

/-! # The bindings of an environment

Which list an environment keeps when it is built from pairs that may repeat a name:
`Environment.toList_ofList`. A name has the value of its last pair, and the names are in order.
-/

namespace Concord

variable {α β : Type}

/-- The members that no later one has the name of. -/
def keepLast : List (String × α) → List (String × α)
  | [] => []
  | member :: members =>
    if member.1 ∈ members.map Prod.fst then keepLast members else member :: keepLast members

def inNameOrder (earlier later : String × α) : Bool := decide (earlier.1 ≤ later.1)

/-- The last member of each name, in name order. -/
def latest (members : List (String × α)) : List (String × α) :=
  (keepLast members).mergeSort inNameOrder

theorem mem_names_of_mem_keepLast {members : List (String × α)} {member : String × α}
    (kept : member ∈ keepLast members) : member.1 ∈ members.map Prod.fst := by
  induction members with
  | nil => cases kept
  | cons head rest ih =>
    rw [keepLast] at kept
    split at kept
    · exact List.mem_cons_of_mem _ (ih kept)
    · rcases List.mem_cons.mp kept with rfl | kept
      · exact List.mem_cons_self
      · exact List.mem_cons_of_mem _ (ih kept)

/-- What is kept of a name is its last member. -/
theorem mem_keepLast_iff {members : List (String × α)} {member : String × α} :
    member ∈ keepLast members ↔
      ∃ before after, members = before ++ member :: after ∧ member.1 ∉ after.map Prod.fst := by
  constructor
  · intro kept
    induction members with
    | nil => cases kept
    | cons head rest ih =>
      have later (kept : member ∈ keepLast rest) : ∃ before after,
          head :: rest = before ++ member :: after ∧ member.1 ∉ after.map Prod.fst := by
        obtain ⟨before, after, rfl, last⟩ := ih kept
        exact ⟨head :: before, after, rfl, last⟩
      rw [keepLast] at kept
      split at kept
      · exact later kept
      · next unique =>
        rcases List.mem_cons.mp kept with rfl | kept
        · exact ⟨[], rest, rfl, unique⟩
        · exact later kept
  · rintro ⟨before, after, rfl, last⟩
    induction before with
    | nil =>
      rw [List.nil_append, keepLast, if_neg last]
      exact List.mem_cons_self
    | cons head before ih =>
      rw [List.cons_append, keepLast]
      split
      · exact ih
      · exact List.mem_cons_of_mem _ ih

theorem mem_names_keepLast_iff {members : List (String × α)} {name : String} :
    name ∈ (keepLast members).map Prod.fst ↔ name ∈ members.map Prod.fst := by
  constructor
  · intro present
    obtain ⟨member, kept, rfl⟩ := List.mem_map.mp present
    exact mem_names_of_mem_keepLast kept
  · intro present
    induction members with
    | nil => cases present
    | cons head rest ih =>
      rw [keepLast]
      split
      · next repeated =>
        rcases List.mem_cons.mp present with rfl | later
        · exact ih repeated
        · exact ih later
      · rcases List.mem_cons.mp present with rfl | later
        · exact List.mem_cons_self
        · exact List.mem_cons_of_mem _ (ih later)

/-- No name is kept twice. -/
theorem pairwise_keepLast (members : List (String × α)) :
    (keepLast members).Pairwise fun earlier later => earlier.1 ≠ later.1 := by
  induction members with
  | nil => exact .nil
  | cons head rest ih =>
    rw [keepLast]
    split
    · exact ih
    · next unique =>
      refine List.pairwise_cons.mpr ⟨?_, ih⟩
      rintro member kept same
      exact unique (same ▸ mem_names_of_mem_keepLast kept)

theorem keepLast_of_pairwise {members : List (String × α)}
    (distinct : members.Pairwise fun earlier later => earlier.1 ≠ later.1) :
    keepLast members = members := by
  induction members with
  | nil => rfl
  | cons head rest ih =>
    obtain ⟨unique, distinct⟩ := List.pairwise_cons.mp distinct
    rw [keepLast, if_neg, ih distinct]
    intro repeated
    obtain ⟨member, present, same⟩ := List.mem_map.mp repeated
    exact unique member present same.symm

theorem keepLast_map (f : α → β) (members : List (String × α)) :
    keepLast (members.map fun member => (member.1, f member.2)) =
      (keepLast members).map fun member => (member.1, f member.2) := by
  induction members with
  | nil => rfl
  | cons head rest ih =>
    have names : (rest.map fun member => (member.1, f member.2)).map Prod.fst =
        rest.map Prod.fst := by
      rw [List.map_map]
      rfl
    simp only [List.map_cons, keepLast, names, ih]
    split <;> rfl

/-- What becomes of the values does not matter. -/
theorem latest_map (f : α → β) (members : List (String × α)) :
    latest (members.map fun member => (member.1, f member.2)) =
      (latest members).map fun member => (member.1, f member.2) := by
  rw [latest, latest, keepLast_map, List.map_mergeSort (s := inNameOrder)]
  intro _ _ _ _
  rfl

theorem mem_latest_iff {members : List (String × α)} {member : String × α} :
    member ∈ latest members ↔ member ∈ keepLast members :=
  List.mem_mergeSort

theorem pairwise_latest (members : List (String × α)) :
    (latest members).Pairwise fun earlier later => earlier.1 < later.1 := by
  have ordered : (latest members).Pairwise fun a b => inNameOrder a b = true := by
    refine List.pairwise_mergeSort (fun a b c => ?_) (fun a b => ?_) (keepLast members)
    · simp only [inNameOrder, decide_eq_true_eq]
      exact String.le_trans
    · simp only [inNameOrder, Bool.or_eq_true, decide_eq_true_eq]
      exact String.le_total a.1 b.1
  have distinct : (latest members).Pairwise fun earlier later => earlier.1 ≠ later.1 :=
    (pairwise_keepLast members).perm (List.mergeSort_perm _ _).symm Ne.symm
  refine (ordered.and distinct).imp fun ⟨order, differ⟩ => ?_
  rw [inNameOrder, decide_eq_true_eq] at order
  refine String.not_le.mp fun converse => differ (String.le_antisymm order converse)

theorem latest_of_ascending {bindings : List (String × Value)} (ascending : Ascending bindings) :
    latest bindings = bindings := by
  rw [latest, keepLast_of_pairwise (ascending.imp String.ne_of_lt)]
  refine List.mergeSort_of_pairwise (ascending.imp fun below => ?_)
  rw [inNameOrder, decide_eq_true_eq]
  exact String.not_lt.mp fun converse => String.lt_irrefl _ (String.lt_trans below converse)

namespace Environment

theorem get?_eq_some_iff_mem (env : Environment) {name : String} {value : Value} :
    env.get? name = some value ↔ (name, value) ∈ env.toList := by
  obtain ⟨bindings, ascending⟩ := env
  change bindings.lookup name = some value ↔ (name, value) ∈ bindings
  induction bindings with
  | nil => simp
  | cons head rest ih =>
    obtain ⟨key, old⟩ := head
    obtain ⟨below, ascending⟩ := List.pairwise_cons.mp ascending
    by_cases same : name = key
    · subst same
      have absent : (name, value) ∉ rest :=
        fun later => String.lt_irrefl name (below (name, value) later)
      simp [absent, eq_comm]
    · simp [List.lookup_cons, beq_eq_false_iff_ne.mpr same, same, ih ascending]

/-- A name has the value of its last pair, or else the one that it had. -/
private theorem get?_foldl_insert (bindings : List (String × Value)) (env : Environment)
    (name : String) (value : Value) :
    (bindings.foldl (fun env binding => env.insert binding.1 binding.2) env).get? name =
      some value ↔
      (name, value) ∈ keepLast bindings ∨
        name ∉ bindings.map Prod.fst ∧ env.get? name = some value := by
  induction bindings generalizing env with
  | nil => simp [keepLast]
  | cons head rest ih =>
    obtain ⟨key, old⟩ := head
    rw [List.foldl_cons, ih, get?_insert, keepLast]
    by_cases same : name = key
    · subst same
      by_cases repeated : name ∈ rest.map Prod.fst
      · simp [repeated]
      · have absent : (name, value) ∉ keepLast rest :=
          fun kept => repeated (mem_names_of_mem_keepLast kept)
        simp [repeated, absent, eq_comm]
    · have other : (name, value) ∈ (if key ∈ rest.map Prod.fst then keepLast rest
          else (key, old) :: keepLast rest) ↔ (name, value) ∈ keepLast rest := by
        split <;> simp [same]
      rw [if_neg same, other]
      simp [same]

/-- Of the pairs that an environment is built from, it keeps the last one of each name, in order. -/
theorem toList_ofList (bindings : List (String × Value)) :
    (ofList bindings).toList = latest bindings := by
  suffices ofList bindings = ⟨latest bindings, pairwise_latest bindings⟩ by rw [this]
  refine ext_get? fun name => Option.ext fun value => ?_
  rw [ofList, get?_foldl_insert, get?_empty, get?_eq_some_iff_mem, mem_latest_iff]
  simp

example : latest [("b", 1), ("a", 2), ("b", 3)] = [("a", 2), ("b", 3)] := by cbv

@[simp] theorem ofList_toList (env : Environment) : ofList env.toList = env := by
  have same := (toList_ofList env.toList).trans (latest_of_ascending env.ascending)
  refine ext_get? fun name => ?_
  rw [get?, same, get?]

end Environment

end Concord
