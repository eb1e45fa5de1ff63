import Concord.Proofs.RoundTrip

/-! # Which texts are programs

The trees of values, expressions, statements and environments, as grammars of their own, and the
theorem that reading accepts the texts of these trees and no others: `Codec.programs_read_exactly`.
What is read says what was written. Only two things are lost: that a statement that does nothing was
written as an object, and the members of an environment that a later one of the same name replaces.
-/

namespace Concord

/-- The trees of values. -/
inductive Value.Form : Json → Prop where
  | number {n : Int} : FitsWord n → Form (.integer n)
  | boolean (b : Bool) : Form (.bool b)

/-- The trees of expressions. -/
inductive Expr.Form : Json → Prop where
  | literal {value : Json} : Value.Form value → Form (.object [("Literal", value)])
  | var (name : String) : Form (.object [("Variable", .string name)])
  | binary {tag : String} {left right : Json} :
    tag ∈ ["Add", "Multiply", "LessThan"] → Form left → Form right →
      Form (.object [(tag, .array [left, right])])

/-- The trees of statements. -/
inductive Stmt.Form : Json → Prop where
  | skip : Form (.string "DoNothing")
  | skipObject : Form (.object [("DoNothing", .null)])
  | assign (name : String) {value : Json} :
    Expr.Form value → Form (.object [("Assign", .array [.string name, value])])
  | ifThenElse {condition consequence alternative : Json} :
    Expr.Form condition → Form consequence → Form alternative →
      Form (.object [("If", .array [condition, consequence, alternative])])
  | seq {first second : Json} :
    Form first → Form second → Form (.object [("Sequence", .array [first, second])])
  | whileDo {condition body : Json} :
    Expr.Form condition → Form body → Form (.object [("While", .array [condition, body])])

/-- The trees of environments. -/
inductive Environment.Form : Json → Prop where
  | object {members : List (String × Json)} :
    (∀ member ∈ members, Value.Form member.2) → Form (.object members)

/-- The tree of a statement in which no statement that does nothing is an object. -/
def Stmt.canonical : Json → Json
  | .object [("DoNothing", .null)] => .string "DoNothing"
  | .object [("If", .array [condition, consequence, alternative])] =>
    .object [("If", .array [condition, canonical consequence, canonical alternative])]
  | .object [("Sequence", .array [first, second])] =>
    .object [("Sequence", .array [canonical first, canonical second])]
  | .object [("While", .array [condition, body])] =>
    .object [("While", .array [condition, canonical body])]
  | tree => tree

/-- The tree of an environment with the last member of each name, in name order. -/
def Environment.canonical : Json → Json
  | .object members => .object (latest members)
  | tree => tree

namespace Codec

variable {α : Type}

/-- The compact text of what a text stands for. -/
def reencode? (codec : Codec α) (text : String) : Option String :=
  (codec.decode? text).map codec.encode

/-- Reading accepts the texts of the trees of a form, and what it reads has the canonical tree. -/
structure ReadsExactly (codec : Codec α) (Form : Json → Prop) (canonical : Json → Json) : Prop where
  accepts : ∀ text, (∃ x, codec.decode? text = some x) ↔
    ∃ tree : Json, text.toList ∈ tree.texts ∧ Form tree
  faithful : ∀ text (tree : Json) again, text.toList ∈ tree.texts →
    codec.reencode? text = some again → again.toList ∈ (canonical tree).texts
  idempotent : ∀ text again, codec.reencode? text = some again →
    codec.reencode? again = some again

/-- It is enough to look at trees. -/
theorem ReadsExactly.of_trees {codec : Codec α} {Form : Json → Prop} {canonical : Json → Json}
    (sound : ∀ {tree x}, codec.ofJson? tree = some x → Form tree ∧ codec.toJson x = canonical tree)
    (complete : ∀ {tree}, Form tree → ∃ x, codec.ofJson? tree = some x)
    (plain : ∀ x, (codec.toJson x).Plain) (roundTrips : codec.RoundTrips) :
    codec.ReadsExactly Form canonical where
  accepts text := by
    simp only [decode?, Option.bind_eq_some_iff, Json.parse?_eq_some_iff]
    constructor
    · rintro ⟨x, tree, isText, read⟩
      exact ⟨tree, isText, (sound read).1⟩
    · rintro ⟨tree, isText, isForm⟩
      obtain ⟨x, read⟩ := complete isForm
      exact ⟨x, tree, isText, read⟩
  faithful text tree again isText success := by
    obtain ⟨x, decoded, rfl⟩ := Option.map_eq_some_iff.mp success
    rw [decode?, Json.parse?_eq_some_iff.mpr isText, Option.bind_some] at decoded
    rw [← (sound decoded).2]
    exact Json.compact_mem_texts (plain x)
  idempotent text again success := by
    obtain ⟨x, _, rfl⟩ := Option.map_eq_some_iff.mp success
    rw [reencode?, roundTrips.decode?_encode, Option.map_some]

/-- Where a thing is read from its own tree only, nothing is lost. -/
theorem ReadsExactly.of_own_trees {codec : Codec α} {Form : Json → Prop}
    (own : ∀ {tree x}, codec.ofJson? tree = some x ↔ tree = codec.toJson x)
    (form_toJson : ∀ x, Form (codec.toJson x))
    (exists_toJson : ∀ {tree}, Form tree → ∃ x, tree = codec.toJson x)
    (plain : ∀ x, (codec.toJson x).Plain) (roundTrips : codec.RoundTrips) :
    codec.ReadsExactly Form id := by
  refine .of_trees (fun {tree x} read => ?_) (fun {tree} isForm => ?_) plain roundTrips
  · rw [own.mp read]
    exact ⟨form_toJson x, rfl⟩
  · obtain ⟨x, same⟩ := exists_toJson isForm
    exact ⟨x, own.mpr same⟩

end Codec

namespace Value

theorem form_toJson (value : Value) : Form value.toJson := by
  cases value with
  | number n => exact .number n.fits
  | boolean b => exact .boolean b

theorem exists_toJson_of_form {tree : Json} (isForm : Form tree) :
    ∃ value : Value, tree = value.toJson := by
  cases isForm with
  | number fits => exact ⟨.number ⟨_, fits⟩, rfl⟩
  | boolean b => exact ⟨.boolean b, rfl⟩

theorem readsExactly : codec.ReadsExactly Form id :=
  .of_own_trees ofJson?_eq_some_iff form_toJson exists_toJson_of_form plain_toJson roundTrips

end Value

namespace Expr

theorem form_toJson (e : Expr) : Form e.toJson := by
  induction e with
  | literal value => exact .literal value.form_toJson
  | var name => exact .var name
  | binary op left right ihLeft ihRight =>
    refine .binary ?_ ihLeft ihRight
    cases op <;> decide

theorem exists_toJson_of_form {tree : Json} (isForm : Form tree) :
    ∃ e : Expr, tree = e.toJson := by
  induction isForm with
  | literal isValue =>
    obtain ⟨value, rfl⟩ := Value.exists_toJson_of_form isValue
    exact ⟨.literal value, rfl⟩
  | var name => exact ⟨.var name, rfl⟩
  | binary known _ _ ihLeft ihRight =>
    obtain ⟨left, rfl⟩ := ihLeft
    obtain ⟨right, rfl⟩ := ihRight
    simp only [List.mem_cons, List.not_mem_nil, or_false] at known
    rcases known with rfl | rfl | rfl
    · exact ⟨.binary .add left right, rfl⟩
    · exact ⟨.binary .multiply left right, rfl⟩
    · exact ⟨.binary .lessThan left right, rfl⟩

theorem readsExactly : codec.ReadsExactly Form id :=
  .of_own_trees ofJson?_eq_some_iff form_toJson exists_toJson_of_form plain_toJson roundTrips

end Expr

namespace Stmt

/-- A tree that is read as a statement has the form of one, and the canonical tree is the
statement's. -/
theorem form_of_ofJson? {tree : Json} {s : Stmt} (read : ofJson? tree = some s) :
    Form tree ∧ s.toJson = canonical tree := by
  fun_induction ofJson? tree generalizing s with
  | case1 =>
    cases read
    exact ⟨.skip, rfl⟩
  | case2 =>
    cases read
    exact ⟨.skipObject, rfl⟩
  | case3 name value =>
    obtain ⟨e, readValue, rfl⟩ := Option.map_eq_some_iff.mp read
    obtain rfl := Expr.ofJson?_eq_some_iff.mp readValue
    exact ⟨.assign name e.form_toJson, by simp [toJson, canonical]⟩
  | case4 condition consequence alternative ihConsequence ihAlternative =>
    simp only [bind, Option.bind_eq_some_iff, pure, Option.some.injEq] at read
    obtain ⟨test, readTest, left, readLeft, right, readRight, rfl⟩ := read
    obtain rfl := Expr.ofJson?_eq_some_iff.mp readTest
    obtain ⟨leftForm, leftTree⟩ := ihConsequence readLeft
    obtain ⟨rightForm, rightTree⟩ := ihAlternative readRight
    refine ⟨.ifThenElse test.form_toJson leftForm rightForm, ?_⟩
    rw [toJson, canonical, leftTree, rightTree]
  | case5 first second ihFirst ihSecond =>
    simp only [bind, Option.bind_eq_some_iff, pure, Option.some.injEq] at read
    obtain ⟨left, readLeft, right, readRight, rfl⟩ := read
    obtain ⟨leftForm, leftTree⟩ := ihFirst readLeft
    obtain ⟨rightForm, rightTree⟩ := ihSecond readRight
    refine ⟨.seq leftForm rightForm, ?_⟩
    rw [toJson, canonical, leftTree, rightTree]
  | case6 condition body ih =>
    simp only [bind, Option.bind_eq_some_iff, pure, Option.some.injEq] at read
    obtain ⟨test, readTest, inner, readInner, rfl⟩ := read
    obtain rfl := Expr.ofJson?_eq_some_iff.mp readTest
    obtain ⟨innerForm, innerTree⟩ := ih readInner
    refine ⟨.whileDo test.form_toJson innerForm, ?_⟩
    rw [toJson, canonical, innerTree]
  | case7 => cases read

theorem exists_of_form {tree : Json} (isForm : Form tree) : ∃ s, ofJson? tree = some s := by
  induction isForm with
  | skip => exact ⟨.skip, rfl⟩
  | skipObject => exact ⟨.skip, rfl⟩
  | assign name isExpr =>
    obtain ⟨e, rfl⟩ := Expr.exists_toJson_of_form isExpr
    exact ⟨.assign name e, by simp [ofJson?]⟩
  | ifThenElse isExpr _ _ ihConsequence ihAlternative =>
    obtain ⟨condition, rfl⟩ := Expr.exists_toJson_of_form isExpr
    obtain ⟨consequence, readConsequence⟩ := ihConsequence
    obtain ⟨alternative, readAlternative⟩ := ihAlternative
    exact ⟨.ifThenElse condition consequence alternative,
      by simp [ofJson?, readConsequence, readAlternative]⟩
  | seq _ _ ihFirst ihSecond =>
    obtain ⟨first, readFirst⟩ := ihFirst
    obtain ⟨second, readSecond⟩ := ihSecond
    exact ⟨.seq first second, by simp [ofJson?, readFirst, readSecond]⟩
  | whileDo isExpr _ ih =>
    obtain ⟨condition, rfl⟩ := Expr.exists_toJson_of_form isExpr
    obtain ⟨body, readBody⟩ := ih
    exact ⟨.whileDo condition body, by simp [ofJson?, readBody]⟩

theorem readsExactly : codec.ReadsExactly Form canonical :=
  .of_trees form_of_ofJson? exists_of_form plain_toJson roundTrips

end Stmt

namespace Environment

/-- The members of an environment's tree are bindings. -/
theorem exists_bindings {members : List (String × Json)}
    (values : ∀ member ∈ members, Value.Form member.2) :
    ∃ bindings : List (String × Value),
      members = bindings.map fun binding => (binding.1, binding.2.toJson) := by
  induction members with
  | nil => exact ⟨[], rfl⟩
  | cons member members ih =>
    obtain ⟨isValue, values⟩ := List.forall_mem_cons.mp values
    obtain ⟨value, same⟩ := Value.exists_toJson_of_form isValue
    obtain ⟨bindings, rfl⟩ := ih values
    exact ⟨(member.1, value) :: bindings, by rw [List.map_cons, ← same]⟩

theorem readsExactly : codec.ReadsExactly Form canonical := by
  refine .of_trees (fun {tree env} read => ?_) (fun {tree} isForm => ?_) plain_toJson roundTrips
  · obtain ⟨bindings, rfl, rfl⟩ := ofJson?_eq_some_iff.mp read
    refine ⟨.object (List.forall_mem_map.mpr fun binding _ => binding.2.form_toJson), ?_⟩
    change Json.object _ = Json.object _
    rw [toList_ofList, latest_map]
  · obtain ⟨values⟩ := isForm
    obtain ⟨bindings, rfl⟩ := exists_bindings values
    exact ⟨ofList bindings, ofJson?_eq_some_iff.mpr ⟨bindings, rfl, rfl⟩⟩

end Environment

/-- Reading accepts the texts of values, expressions, statements and environments and no others, and
reads into them nothing that they do not say. -/
theorem Codec.programs_read_exactly :
    Value.codec.ReadsExactly Value.Form id ∧ Expr.codec.ReadsExactly Expr.Form id ∧
      Stmt.codec.ReadsExactly Stmt.Form Stmt.canonical ∧
      Environment.codec.ReadsExactly Environment.Form Environment.canonical :=
  ⟨Value.readsExactly, Expr.readsExactly, Stmt.readsExactly, Environment.readsExactly⟩

/-- A sequence of two statements that do nothing, one of them written as an object. -/
private def mixedSkips : Json :=
  .object [("Sequence", .array [.object [("DoNothing", .null)], .string "DoNothing"])]

/-- Both are words when they are written again, and then they stay so. -/
theorem mixed_skips_read :
    ∃ again, mixedSkips.compact.toList ∈ mixedSkips.texts ∧
      Stmt.codec.reencode? mixedSkips.compact = some again ∧
      again.toList ∈
        (Json.object [("Sequence", .array [.string "DoNothing", .string "DoNothing"])]).texts ∧
      Stmt.codec.reencode? again = some again := by
  have isText : mixedSkips.compact.toList ∈ mixedSkips.texts :=
    Json.compact_mem_texts (by simp [mixedSkips])
  obtain ⟨_, _, reads, _⟩ := Codec.programs_read_exactly
  obtain ⟨s, decoded⟩ := (reads.accepts _).mpr ⟨mixedSkips, isText, .seq .skipObject .skip⟩
  have again : Stmt.codec.reencode? mixedSkips.compact = some (Stmt.codec.encode s) :=
    Option.map_eq_some_iff.mpr ⟨s, decoded, rfl⟩
  have faithful := reads.faithful _ _ _ isText again
  simp only [mixedSkips, Stmt.canonical] at faithful
  exact ⟨_, isText, again, faithful, reads.idempotent _ _ again⟩

end Concord
