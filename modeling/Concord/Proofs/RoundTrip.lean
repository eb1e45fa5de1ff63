import Concord.Codec
import Concord.Proofs.Bindings
import Concord.Proofs.Json.Writing
import Concord.Proofs.Traversal

/-! # Programs written and read back

Values, expressions, statements and environments are written as compact JSON text and read from
JSON text. What has been written is read back as it was: `Codec.programs_round_trip`.
-/

namespace Concord

/-- How the things of a type are written as JSON trees and read from them. -/
structure Codec (α : Type) where
  toJson : α → Json
  ofJson? : Json → Option α

namespace Codec

variable {α : Type}

/-- The compact text of a thing. -/
def encode (codec : Codec α) (x : α) : String := (codec.toJson x).compact

/-- The thing that a text stands for. -/
def decode? (codec : Codec α) (text : String) : Option α :=
  (Json.parse? text).bind codec.ofJson?

/-- What is written is read back, so different things are never written alike. -/
structure RoundTrips (codec : Codec α) : Prop where
  decode?_encode : ∀ x, codec.decode? (codec.encode x) = some x
  encode_injective : Function.Injective codec.encode

theorem RoundTrips.of_toJson {codec : Codec α} (plain : ∀ x, (codec.toJson x).Plain)
    (restored : ∀ x, codec.ofJson? (codec.toJson x) = some x) : codec.RoundTrips := by
  have back (x : α) : codec.decode? (codec.encode x) = some x := by
    rw [decode?, encode, Json.parse?_compact (plain x), Option.bind_some, restored]
  refine ⟨back, fun x y same => ?_⟩
  have read := congrArg codec.decode? same
  rwa [back, back, Option.some.injEq] at read

end Codec

namespace Value

def codec : Codec Value := ⟨toJson, ofJson?⟩

@[simp] theorem plain_toJson (value : Value) : value.toJson.Plain := by
  cases value <;> simp [toJson]

theorem ofJson?_eq_some_iff {tree : Json} {value : Value} :
    ofJson? tree = some value ↔ tree = value.toJson := by
  constructor
  · intro success
    unfold ofJson? at success
    split at success
    · obtain ⟨n, fits, rfl⟩ := Option.map_eq_some_iff.mp success
      rw [(Number.ofInt?_eq_some_iff _ n).mp fits, toJson]
    · cases success
      rfl
    · cases success
  · rintro rfl
    cases value <;> simp [toJson, ofJson?]

theorem roundTrips : codec.RoundTrips :=
  .of_toJson plain_toJson fun _ => ofJson?_eq_some_iff.mpr rfl

end Value

theorem Operator.ofTag?_eq_some_iff {tag : String} {op : Operator} :
    ofTag? tag = some op ↔ tag = op.tag := by
  unfold ofTag?
  split_ifs <;> cases op <;> simp_all [Operator.tag]

namespace Expr

def codec : Codec Expr := ⟨toJson, ofJson?⟩

@[simp] theorem plain_toJson (e : Expr) : e.toJson.Plain := by
  induction e <;> simp_all [toJson]

@[simp] theorem ofJson?_toJson (e : Expr) : ofJson? e.toJson = some e := by
  induction e with
  | literal value => simp [toJson, ofJson?, Value.ofJson?_eq_some_iff]
  | var name => simp [toJson, ofJson?]
  | binary op left right ihLeft ihRight =>
    cases op <;> simp [toJson, ofJson?, ihLeft, ihRight, Operator.tag, Operator.ofTag?]

/-- An expression is read from its own tree only. -/
theorem ofJson?_eq_some_iff {tree : Json} {e : Expr} :
    ofJson? tree = some e ↔ tree = e.toJson := by
  constructor
  · intro success
    fun_induction ofJson? tree generalizing e with
    | case1 value =>
      obtain ⟨value, read, rfl⟩ := Option.map_eq_some_iff.mp success
      rw [Value.ofJson?_eq_some_iff.mp read, toJson]
    | case2 name =>
      cases success
      rfl
    | case3 tag left right _ ihLeft ihRight =>
      simp only [bind, Option.bind_eq_some_iff, pure, Option.some.injEq] at success
      obtain ⟨op, known, leftRead, readLeft, rightRead, readRight, rfl⟩ := success
      rw [Operator.ofTag?_eq_some_iff.mp known, ihLeft readLeft, ihRight readRight, toJson]
    | case4 => cases success
  · rintro rfl
    exact ofJson?_toJson e

theorem roundTrips : codec.RoundTrips := .of_toJson plain_toJson ofJson?_toJson

end Expr

namespace Stmt

def codec : Codec Stmt := ⟨toJson, ofJson?⟩

@[simp] theorem plain_toJson (s : Stmt) : s.toJson.Plain := by
  induction s <;> simp_all [toJson]

@[simp] theorem ofJson?_toJson (s : Stmt) : ofJson? s.toJson = some s := by
  induction s <;> simp_all [toJson, ofJson?]

theorem roundTrips : codec.RoundTrips := .of_toJson plain_toJson ofJson?_toJson

end Stmt

namespace Environment

def codec : Codec Environment := ⟨toJson, ofJson?⟩

@[simp] theorem plain_toJson (env : Environment) : env.toJson.Plain := by
  simp only [toJson, Json.plain_object, List.forall_mem_map]
  exact fun binding _ => binding.2.plain_toJson

/-- An environment is read from the members that its bindings are written as. -/
theorem ofJson?_eq_some_iff {tree : Json} {env : Environment} :
    ofJson? tree = some env ↔ ∃ bindings, env = ofList bindings ∧
      tree = .object (bindings.map fun binding => (binding.1, binding.2.toJson)) := by
  cases tree with
  | object members =>
    have inverse (member : String × Json) (binding : String × Value) :
        (do let value ← Value.ofJson? member.2; return (member.1, value)) = some binding ↔
          member = (binding.1, binding.2.toJson) := by
      obtain ⟨key, tree⟩ := member
      obtain ⟨name, value⟩ := binding
      simp only [Option.bind_eq_bind, Option.bind_eq_some_iff, Value.ofJson?_eq_some_iff,
        Option.pure_def, Option.some.injEq, Prod.mk.injEq]
      constructor
      · rintro ⟨_, rfl, rfl, rfl⟩
        exact ⟨rfl, rfl⟩
      · rintro ⟨rfl, rfl⟩
        exact ⟨value, rfl, rfl, rfl⟩
    simp only [ofJson?, Option.bind_eq_bind, Option.bind_eq_some_iff, Option.pure_def,
      Option.some.injEq, Json.object.injEq]
    refine exists_congr fun bindings => ?_
    rw [and_comm, eq_comm]
    exact and_congr_right fun _ => mapM_eq_some_iff_of_inverse inverse
  | null | bool | integer | decimal | string | array => simp [ofJson?]

@[simp] theorem ofJson?_toJson (env : Environment) : ofJson? env.toJson = some env :=
  ofJson?_eq_some_iff.mpr ⟨env.toList, (ofList_toList env).symm, rfl⟩

theorem roundTrips : codec.RoundTrips := .of_toJson plain_toJson ofJson?_toJson

end Environment

/-- Whatever a program is made of is read back as it was written, and no two of them are written
alike. -/
theorem Codec.programs_round_trip :
    Value.codec.RoundTrips ∧ Expr.codec.RoundTrips ∧ Stmt.codec.RoundTrips ∧
      Environment.codec.RoundTrips :=
  ⟨Value.roundTrips, Expr.roundTrips, Stmt.roundTrips, Environment.roundTrips⟩

end Concord
