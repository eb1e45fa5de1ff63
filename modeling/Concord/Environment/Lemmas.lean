import Concord.Environment.Basic

/-! # Environments as finite maps

Through `get?` an environment is a finite map: `get?_insert` says what an insertion changes, and
`ext_get?` that nothing but the map can be observed.
-/

namespace Concord

private theorem lookup_binding_cons (binding : String × Value) (rest : List (String × Value))
    (name : String) :
    (binding :: rest).lookup name =
      if name = binding.1 then some binding.2 else rest.lookup name := by
  obtain ⟨key, value⟩ := binding
  by_cases same : name = key <;> simp [List.lookup_cons, same, beq_eq_false_iff_ne.mpr]

private theorem lookup_insertBinding (name : String) (value : Value)
    (bindings : List (String × Value)) (other : String) :
    (insertBinding name value bindings).lookup other =
      if other = name then some value else bindings.lookup other := by
  induction bindings with
  | nil => simp [insertBinding, lookup_binding_cons]
  | cons head rest ih =>
    simp only [insertBinding]
    split
    · simp [lookup_binding_cons]
    · split
      · next same => by_cases atName : other = name <;> simp [lookup_binding_cons, atName, ← same]
      · next differs =>
        simp only [lookup_binding_cons, ih]
        by_cases atHead : other = head.1
        · simp [atHead, Ne.symm differs]
        · simp [atHead]

private theorem lookup_eq_none_of_below {name : String} {bindings : List (String × Value)}
    (below : ∀ binding ∈ bindings, name < binding.1) : bindings.lookup name = none := by
  induction bindings with
  | nil => rfl
  | cons head rest ih =>
    have differs : name ≠ head.1 := String.ne_of_lt (below head List.mem_cons_self)
    rw [lookup_binding_cons, if_neg differs]
    exact ih fun binding present => below binding (List.mem_cons_of_mem _ present)

private theorem eq_of_lookup_eq {left right : List (String × Value)}
    (leftAscending : Ascending left) (rightAscending : Ascending right)
    (same : ∀ name, left.lookup name = right.lookup name) : left = right := by
  induction left generalizing right with
  | nil =>
    cases right with
    | nil => rfl
    | cons head rest => simpa [lookup_binding_cons] using same head.1
  | cons leftHead leftRest ih =>
    obtain ⟨leftBelow, leftTail⟩ := List.pairwise_cons.mp leftAscending
    cases right with
    | nil => simpa [lookup_binding_cons] using same leftHead.1
    | cons rightHead rightRest =>
      obtain ⟨rightBelow, rightTail⟩ := List.pairwise_cons.mp rightAscending
      simp only [lookup_binding_cons] at same
      have keys : leftHead.1 = rightHead.1 := by
        refine Decidable.byContradiction fun differ => ?_
        have atLeft := same leftHead.1
        have atRight := same rightHead.1
        rw [if_pos rfl, if_neg differ] at atLeft
        rw [if_pos rfl, if_neg (Ne.symm differ)] at atRight
        by_cases before : leftHead.1 < rightHead.1
        · rw [lookup_eq_none_of_below fun binding present =>
            String.lt_trans before (rightBelow binding present)] at atLeft
          cases atLeft
        · have after : rightHead.1 < leftHead.1 := by
            refine Decidable.byContradiction fun notAfter => differ ?_
            exact String.le_antisymm (String.not_lt.mp notAfter) (String.not_lt.mp before)
          rw [lookup_eq_none_of_below fun binding present =>
            String.lt_trans after (leftBelow binding present)] at atRight
          cases atRight
      have values : leftHead.2 = rightHead.2 := by
        simpa [keys] using same leftHead.1
      have heads : leftHead = rightHead := Prod.ext keys values
      subst heads
      congr 1
      refine ih leftTail rightTail fun name => ?_
      by_cases atHead : name = leftHead.1
      · subst atHead
        rw [lookup_eq_none_of_below leftBelow, lookup_eq_none_of_below rightBelow]
      · simpa [atHead] using same name

namespace Environment

@[simp] theorem get?_empty (name : String) : empty.get? name = none := rfl

/-- An insertion changes the value of its own name only. -/
theorem get?_insert (env : Environment) (name : String) (value : Value) (other : String) :
    (env.insert name value).get? other = if other = name then some value else env.get? other :=
  lookup_insertBinding name value env.toList other

@[simp] theorem get?_insert_self (env : Environment) (name : String) (value : Value) :
    (env.insert name value).get? name = some value := by
  simp [get?_insert]

theorem get?_insert_of_ne (env : Environment) {name other : String} (value : Value)
    (differs : other ≠ name) : (env.insert name value).get? other = env.get? other := by
  simp [get?_insert, differs]

/-- Environments that bind the same names to the same values are equal. -/
theorem ext_get? {left right : Environment} (same : ∀ name, left.get? name = right.get? name) :
    left = right := by
  obtain ⟨leftList, leftAscending⟩ := left
  obtain ⟨rightList, rightAscending⟩ := right
  cases eq_of_lookup_eq leftAscending rightAscending same
  rfl

theorem lookup_eq_ok_iff (env : Environment) (name : String) (value : Value) :
    env.lookup name = .ok value ↔ env.get? name = some value := by
  unfold lookup
  cases env.get? name <;> simp

theorem lookup_eq_error_iff (env : Environment) (name : String) (fault : Fault) :
    env.lookup name = .error fault ↔ env.get? name = none ∧ fault = .undefinedVariable name := by
  unfold lookup
  cases env.get? name <;> simp [eq_comm]

end Environment

end Concord
