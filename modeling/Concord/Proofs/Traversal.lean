import Mathlib.Data.List.Forall2

/-! # Lists of partial values

A partial function gives a list of values for a list if it has a value for each member, in order:
`mapM_eq_some_iff`. So what it gives for single members carries over to lists: a reader that takes
back what has been written takes back a list of it.
-/

namespace Concord

variable {α β γ : Type}

/-- Partial values of a list in order: there is a list of them when there is one for each member. -/
theorem mapM_eq_some_iff {f : α → Option β} {list : List α} {values : List β} :
    list.mapM f = some values ↔ list.map f = values.map some := by
  induction list generalizing values with
  | nil => cases values <;> simp
  | cons head tail ih =>
    rw [List.mapM_cons, List.map_cons]
    cases first : f head with
    | none => cases values <;> simp
    | some value =>
      cases values with
      | nil => simp [Option.bind_eq_some_iff]
      | cons other others => simp [Option.bind_eq_some_iff, ih, and_comm]

theorem exists_map_some {f : α → Option β} {list : List α}
    (values : ∀ a ∈ list, ∃ b, f a = some b) :
    ∃ members : List β, list.map f = members.map some := by
  induction list with
  | nil => exact ⟨[], rfl⟩
  | cons head tail ih =>
    obtain ⟨value, first⟩ := values head List.mem_cons_self
    obtain ⟨members, rest⟩ := ih fun a member => values a (List.mem_cons_of_mem _ member)
    exact ⟨value :: members, by simp [first, rest]⟩

theorem exists_mapM_eq_some_iff {f : α → Option β} {list : List α} :
    (∃ values, list.mapM f = some values) ↔ ∀ a ∈ list, ∃ b, f a = some b := by
  simp only [mapM_eq_some_iff]
  constructor
  · rintro ⟨values, listed⟩ a member
    have valued : f a ∈ values.map some := listed ▸ List.mem_map_of_mem member
    obtain ⟨b, _, found⟩ := List.mem_map.mp valued
    exact ⟨b, found.symm⟩
  · exact exists_map_some

/-- Functions that have values wherever others have them give lists of the same values. -/
theorem map_some_of_below {f g : α → Option β} {list : List α} {members : List β}
    (below : ∀ a b, f a = some b → g a = some b) (listed : list.map f = members.map some) :
    list.map g = members.map some := by
  rw [← listed]
  refine List.map_congr_left fun a member => ?_
  have valued : f a ∈ members.map some := listed ▸ List.mem_map_of_mem member
  obtain ⟨b, _, found⟩ := List.mem_map.mp valued
  rw [← found]
  exact below a b found.symm

/-- A list is read back if each of its members is. -/
theorem mapM_map_eq_some {write : α → β} {read : β → Option γ} {known : α → γ}
    (restored : ∀ a, read (write a) = some (known a)) (list : List α) :
    (list.map write).mapM read = some (list.map known) := by
  rw [mapM_eq_some_iff, List.map_map, List.map_map]
  exact List.map_congr_left fun a _ => restored a

/-- A list is read only from what it is written as if this is so for each member. -/
theorem mapM_eq_some_iff_of_inverse {read : α → Option β} {write : β → α}
    (inverse : ∀ a b, read a = some b ↔ a = write b) {inputs : List α} {outputs : List β} :
    inputs.mapM read = some outputs ↔ inputs = outputs.map write := by
  rw [mapM_eq_some_iff, ← List.forall₂_eq_eq_eq, ← List.forall₂_eq_eq_eq]
  simp only [List.forall₂_map_left_iff, List.forall₂_map_right_iff, inverse]

end Concord
