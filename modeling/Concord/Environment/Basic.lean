import Concord.Value

/-! # Environments

An environment binds finitely many names to values. The bindings are kept in strictly ascending
order of their names (by code point), so each name is bound at most once and equal environments are
equal as lists. No operation changes an environment; `insert` makes a new one.
-/

namespace Concord

/-- A list of bindings in which the names strictly ascend. -/
def Ascending (bindings : List (String × Value)) : Prop :=
  bindings.Pairwise fun earlier later => earlier.1 < later.1

/-- Puts a binding where it belongs, in place of one for the same name. -/
def insertBinding (name : String) (value : Value) :
    List (String × Value) → List (String × Value)
  | [] => [(name, value)]
  | (key, old) :: rest =>
    if name < key then (name, value) :: (key, old) :: rest
    else if name = key then (name, value) :: rest
    else (key, old) :: insertBinding name value rest

theorem mem_insertBinding {name : String} {value : Value} {bindings : List (String × Value)}
    {binding : String × Value} (present : binding ∈ insertBinding name value bindings) :
    binding.1 = name ∨ binding ∈ bindings := by
  induction bindings with
  | nil => simp_all [insertBinding]
  | cons head rest ih =>
    simp only [insertBinding] at present
    split at present
    · rcases List.mem_cons.mp present with rfl | older
      · exact .inl rfl
      · exact .inr older
    · split at present
      · rcases List.mem_cons.mp present with rfl | older
        · exact .inl rfl
        · exact .inr (List.mem_cons_of_mem _ older)
      · rcases List.mem_cons.mp present with rfl | older
        · exact .inr List.mem_cons_self
        · exact (ih older).imp_right (List.mem_cons_of_mem _)

theorem Ascending.insertBinding {bindings : List (String × Value)} (name : String) (value : Value)
    (ascending : Ascending bindings) : Ascending (insertBinding name value bindings) := by
  induction bindings with
  | nil => simp [Concord.insertBinding, Ascending]
  | cons head rest ih =>
    obtain ⟨below, tail⟩ := List.pairwise_cons.mp ascending
    simp only [Concord.insertBinding]
    split
    · next before =>
      refine List.pairwise_cons.mpr ⟨fun binding present => ?_, ascending⟩
      rcases List.mem_cons.mp present with rfl | later
      · exact before
      · exact String.lt_trans before (below binding later)
    · split
      · next same =>
        exact List.pairwise_cons.mpr ⟨fun binding later => same ▸ below binding later, tail⟩
      · next notBefore differs =>
        refine List.pairwise_cons.mpr ⟨fun binding present => ?_, ih tail⟩
        rcases mem_insertBinding present with atName | later
        · rw [atName]
          refine Decidable.byContradiction fun notAfter => differs ?_
          exact String.le_antisymm (String.not_lt.mp notAfter) (String.not_lt.mp notBefore)
        · exact below binding later

/-- An environment: bindings in ascending order of their names. -/
structure Environment where
  /-- The bindings in name order. -/
  toList : List (String × Value)
  ascending : Ascending toList
deriving DecidableEq

namespace Environment

def empty : Environment := ⟨[], List.Pairwise.nil⟩

/-- This environment with `name` bound to `value`, in place of any binding it had. -/
def insert (env : Environment) (name : String) (value : Value) : Environment :=
  ⟨insertBinding name value env.toList, env.ascending.insertBinding name value⟩

/-- Binds one pair after the other, so that of two bindings of a name the later one stays. -/
def ofList (bindings : List (String × Value)) : Environment :=
  bindings.foldl (fun env binding => env.insert binding.1 binding.2) empty

/-- The value of a name, if it is bound. -/
def get? (env : Environment) (name : String) : Option Value :=
  env.toList.lookup name

/-- The value of a name that has to be bound. -/
def lookup (env : Environment) (name : String) : Except Fault Value :=
  match env.get? name with
  | some value => .ok value
  | none => .error (.undefinedVariable name)

def size (env : Environment) : Nat := env.toList.length

def isEmpty (env : Environment) : Bool := env.toList.isEmpty

/-- Bindings as `name: value`, separated by commas, between braces. -/
def text (env : Environment) : String :=
  "\x7b" ++ ", ".intercalate (env.toList.map fun (name, value) => name ++ ": " ++ value.text)
    ++ "\x7d"

end Environment

/-- What running a statement ends in: the final environment, or the fault that stopped it. -/
abbrev Result : Type := Except Fault Environment

end Concord
