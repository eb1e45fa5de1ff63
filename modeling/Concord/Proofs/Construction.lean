import Concord.Proofs.ByteOrder
import Concord.Proofs.RoundTrip
import Mathlib.Data.Finset.Card

/-! # Environments and the insertions behind them

An environment comes from the empty one by insertions, one at a time, from a list, or from the
members of an object that is read. However it has been built, it is the map from each name to the
value that the name was last given: `Built.holdsLast`.
-/

namespace Concord

namespace Environment

/-- Ways to build an environment, with all the insertions that it comes from, in order. A list or a
text makes a new environment. -/
inductive Built : List (String × Value) → Environment → Prop where
  | empty : Built [] .empty
  | insert {insertions : List (String × Value)} {env : Environment} (built : Built insertions env)
      (name : String) (value : Value) :
      Built (insertions ++ [(name, value)]) (env.insert name value)
  | ofList (bindings : List (String × Value)) : Built bindings (.ofList bindings)
  | decode {text : String} {bindings : List (String × Value)} {env : Environment}
      (parsed : Json.parse? text =
        some (.object (bindings.map fun binding => (binding.1, binding.2.toJson))))
      (decoded : codec.decode? text = some env) : Built bindings env

variable {insertions : List (String × Value)} {env : Environment} {name : String} {value : Value}

/-- However an environment has been built, it is made of its insertions in their order. -/
theorem Built.eq_ofList (built : Built insertions env) : env = .ofList insertions := by
  induction built with
  | empty => rfl
  | @insert insertions _ _ name value ih =>
    rw [ih, Environment.ofList, Environment.ofList, List.foldl_append]
    rfl
  | ofList bindings => rfl
  | @decode _ bindings _ parsed decoded =>
    rw [Codec.decode?, parsed, Option.bind_some] at decoded
    have read := ofJson?_eq_some_iff.mpr ⟨bindings, rfl, rfl⟩
    exact Option.some.inj (decoded.symm.trans read)

/-- Every text that is an environment has members to build it from. -/
theorem exists_built_of_decode {text : String} (decoded : codec.decode? text = some env) :
    ∃ bindings, Json.parse? text =
        some (.object (bindings.map fun binding => (binding.1, binding.2.toJson))) ∧
      Built bindings env := by
  obtain ⟨tree, parsed, read⟩ := Option.bind_eq_some_iff.mp decoded
  obtain ⟨bindings, _, rfl⟩ := ofJson?_eq_some_iff.mp read
  exact ⟨bindings, parsed, .decode parsed decoded⟩

/-- The value is the last that the name was given. -/
def LastGiven (insertions : List (String × Value)) (name : String) (value : Value) : Prop :=
  ∃ before after, insertions = before ++ (name, value) :: after ∧ name ∉ after.map Prod.fst

/-- An environment holds of each name the value last given, in the byte order of the names, and
nothing else. -/
structure HoldsLast (insertions : List (String × Value)) (env : Environment) : Prop where
  ascending : env.toList.Pairwise fun earlier later => utf8Bytes earlier.1 < utf8Bytes later.1
  nodup : (env.toList.map Prod.fst).Nodup
  mem_iff : ∀ name value, (name, value) ∈ env.toList ↔ LastGiven insertions name value
  get?_some : ∀ name value, env.get? name = some value ↔ LastGiven insertions name value
  get?_none : ∀ name, env.get? name = none ↔ name ∉ insertions.map Prod.fst
  lookup_ok : ∀ name value, env.lookup name = .ok value ↔ LastGiven insertions name value
  lookup_error : ∀ name fault, env.lookup name = .error fault ↔
    name ∉ insertions.map Prod.fst ∧ fault = .undefinedVariable name
  size : env.size = (insertions.map Prod.fst).toFinset.card

theorem mem_toList_ofList_iff :
    (name, value) ∈ (ofList insertions).toList ↔ LastGiven insertions name value := by
  rw [toList_ofList, mem_latest_iff, mem_keepLast_iff]
  rfl

theorem names_toList_ofList (insertions : List (String × Value)) :
    ((ofList insertions).toList.map Prod.fst).Perm ((keepLast insertions).map Prod.fst) := by
  rw [toList_ofList]
  exact (List.mergeSort_perm _ _).map _

theorem holdsLast_ofList (insertions : List (String × Value)) :
    HoldsLast insertions (ofList insertions) := by
  have distinct : ((ofList insertions).toList.map Prod.fst).Nodup :=
    List.pairwise_map.mpr ((ofList insertions).ascending.imp String.ne_of_lt)
  have names (name : String) :
      name ∈ (ofList insertions).toList.map Prod.fst ↔ name ∈ insertions.map Prod.fst := by
    rw [(names_toList_ofList insertions).mem_iff, mem_names_keepLast_iff]
  have some_iff (name : String) (value : Value) :
      (ofList insertions).get? name = some value ↔ LastGiven insertions name value := by
    rw [get?_eq_some_iff_mem, mem_toList_ofList_iff]
  have none_iff (name : String) :
      (ofList insertions).get? name = none ↔ name ∉ insertions.map Prod.fst := by
    rw [← names, Option.eq_none_iff_forall_ne_some]
    simp only [List.mem_map, Prod.exists, exists_and_right, exists_eq_right, not_exists, ne_eq,
      get?_eq_some_iff_mem]
  exact {
    ascending := (ofList insertions).ascending.imp (utf8Bytes_lt_iff _ _).mpr
    nodup := distinct
    mem_iff := fun _ _ => mem_toList_ofList_iff
    get?_some := some_iff
    get?_none := none_iff
    lookup_ok := fun name value => (lookup_eq_ok_iff _ name value).trans (some_iff name value)
    lookup_error := fun name fault => (lookup_eq_error_iff _ name fault).trans
      (and_congr_left fun _ => none_iff name)
    size := by
      have same : ((ofList insertions).toList.map Prod.fst).toFinset =
          (insertions.map Prod.fst).toFinset := by
        ext name
        rw [List.mem_toFinset, List.mem_toFinset, names]
      rw [← same, List.toFinset_card_of_nodup distinct, List.length_map, Environment.size] }

theorem Built.holdsLast (built : Built insertions env) : HoldsLast insertions env :=
  built.eq_ofList ▸ holdsLast_ofList insertions

/-- Every environment that has been built holds what its names were last given, in byte order, and
what is read from a text has been built. Environments are the same when they give the same for every
name, when they are written as the same text, or when their names were last given the same values,
in whatever order. -/
theorem built_environments_hold_last {insertions others : List (String × Value)}
    {env other : Environment} (built : Built insertions env) (otherBuilt : Built others other) :
    HoldsLast insertions env ∧
    (∀ text decoded, codec.decode? text = some decoded → ∃ bindings, Json.parse? text =
        some (.object (bindings.map fun binding => (binding.1, binding.2.toJson))) ∧
      Built bindings decoded) ∧
    (env = other ↔ ∀ name, env.get? name = other.get? name) ∧
    (env = other ↔ codec.encode env = codec.encode other) ∧
    (env = other ↔
      ∀ name value, LastGiven insertions name value ↔ LastGiven others name value) := by
  have pointwise : env = other ↔ ∀ name, env.get? name = other.get? name :=
    ⟨fun same name => same ▸ rfl, ext_get?⟩
  refine ⟨built.holdsLast, fun text decoded => exists_built_of_decode, pointwise,
    roundTrips.encode_injective.eq_iff.symm, pointwise.trans (forall_congr' fun name => ?_)⟩
  rw [Option.ext_iff]
  simp only [built.holdsLast.get?_some, otherBuilt.holdsLast.get?_some]

/-- A text that gives `b` a value twice, behind `a`, is read as what insertions in another order
make. -/
theorem built_environments_hold_last_of_text :
    ∃ text env, codec.decode? text = some env ∧
      env = ((empty.insert "b" (.boolean true)).insert "b" (.boolean false)).insert "a"
        (.boolean true) ∧
      env.get? "b" = some (.boolean false) ∧ env.lookup "c" = .error (.undefinedVariable "c") ∧
      env.size = 2 := by
  let bindings : List (String × Value) :=
    [("a", .boolean true), ("b", .boolean true), ("b", .boolean false)]
  let tree : Json := .object (bindings.map fun binding => (binding.1, binding.2.toJson))
  have parsed : Json.parse? tree.compact = some tree :=
    Json.parse?_compact (by simp [tree, bindings])
  have decoded : codec.decode? tree.compact = some (ofList bindings) := by
    rw [Codec.decode?, parsed]
    exact ofJson?_eq_some_iff.mpr ⟨bindings, rfl, rfl⟩
  have inserted := ((Built.empty.insert "b" (.boolean true)).insert "b" (.boolean false)).insert "a"
    (.boolean true)
  obtain ⟨holds, _, pointwise, _⟩ := built_environments_hold_last (.decode parsed decoded) inserted
  refine ⟨_, _, decoded, pointwise.mpr fun name => ?_, ?_, ?_, ?_⟩
  · simp only [bindings, ofList, List.foldl_cons, List.foldl_nil, get?_insert]
    by_cases atA : name = "a" <;> simp [atA]
  · exact (holds.get?_some _ _).mpr ⟨bindings.take 2, [], rfl, List.not_mem_nil⟩
  · exact (holds.lookup_error _ _).mpr ⟨by simp [bindings], rfl⟩
  · rw [holds.size]
    decide

end Environment

end Concord
