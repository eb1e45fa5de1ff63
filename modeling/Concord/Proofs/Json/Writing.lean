import Concord.Proofs.Json.Reading

/-! # Writing trees

Compact text is one of the texts of its tree, so it is read back: `parse?_compact`. It stands on one
line, whatever strings are in the tree: `le_toNat_of_mem_compact`. The only trees that cannot be
written are those with a string that is no numeral in place of one; trees of programs have no
numerals but integers.
-/

namespace Concord.Json

open Grammar Language

/-- Every number in the tree is an integer. -/
def Plain (tree : Json) : Prop := ∀ numeral, .decimal numeral ∉ tree.tokens

private theorem mem_itemTokens_iff {items : List Json} {numeral : String} :
    .decimal numeral ∈ itemTokens items ↔ ∃ item ∈ items, .decimal numeral ∈ item.tokens := by
  induction items with
  | nil => simp [itemTokens]
  | cons item items ih => simp [itemTokens, ih]

private theorem mem_memberTokens_iff {members : List (String × Json)} {numeral : String} :
    .decimal numeral ∈ memberTokens members ↔
      ∃ member ∈ members, .decimal numeral ∈ member.2.tokens := by
  induction members with
  | nil => simp [memberTokens]
  | cons member members ih => simp [memberTokens, ih]

@[simp] theorem plain_null : null.Plain := by simp [Plain, tokens]

@[simp] theorem plain_bool (b : Bool) : (bool b).Plain := by simp [Plain, tokens]

@[simp] theorem plain_integer (n : Int) : (integer n).Plain := by simp [Plain, tokens]

@[simp] theorem plain_string (s : String) : (string s).Plain := by simp [Plain, tokens]

@[simp] theorem plain_array {items : List Json} :
    (array items).Plain ↔ ∀ item ∈ items, item.Plain := by
  cases items with
  | nil => simp [Plain, tokens]
  | cons item items =>
    simp only [Plain, tokens, List.mem_cons, List.mem_append, mem_itemTokens_iff]
    grind

@[simp] theorem plain_object {members : List (String × Json)} :
    (object members).Plain ↔ ∀ member ∈ members, member.2.Plain := by
  cases members with
  | nil => simp [Plain, tokens]
  | cons member members =>
    simp only [Plain, tokens, List.mem_cons, List.mem_append, mem_memberTokens_iff]
    grind

theorem Token.spell_mem_lexemes {token : Token} (plain : ∀ numeral, token ≠ .decimal numeral) :
    token.spell ∈ token.lexemes := by
  cases token with
  | openBracket | closeBracket | openBrace | closeBrace | comma | colon | null | integer => rfl
  | bool b => cases b <;> rfl
  | decimal numeral => exact (plain numeral rfl).elim
  | string s =>
    have quote : ['"'] ∈ just "\"" := rfl
    have inner := Quoted.flatMap_escape_mem_body s.toList
    exact append_mem_mul (append_mem_mul quote inner) quote

theorem Token.flatMap_spell_mem_spaced {tokens : List Token}
    (plain : ∀ numeral, .decimal numeral ∉ tokens) : tokens.flatMap spell ∈ spaced tokens := by
  induction tokens with
  | nil => rfl
  | cons token tokens ih =>
    have isToken : token.spell ∈ token.lexemes :=
      spell_mem_lexemes fun numeral same => plain numeral (same ▸ List.mem_cons_self)
    have others := ih fun numeral present => plain numeral (List.mem_cons_of_mem token present)
    rw [List.flatMap_cons, ← List.append_nil token.spell]
    exact append_mem_mul (append_mem_mul isToken nofun) others

/-- Compact text stands for its tree. -/
theorem compact_mem_texts {tree : Json} (plain : tree.Plain) :
    tree.compact.toList ∈ tree.texts := by
  rw [compact, String.toList_ofList, texts, mul_assoc, ← spaced_tokens]
  exact ⟨[], nofun, _, Token.flatMap_spell_mem_spaced plain, rfl⟩

/-- A tree that has been written is read back. -/
theorem parse?_compact {tree : Json} (plain : tree.Plain) : parse? tree.compact = some tree :=
  parse?_eq_some_iff.mpr (compact_mem_texts plain)

/-- A token is written without control characters. -/
theorem Token.le_toNat_of_mem_spell {token : Token} (plain : ∀ numeral, token ≠ .decimal numeral) :
    ∀ c ∈ token.spell, 0x20 ≤ c.toNat := by
  cases token with
  | openBracket | closeBracket | openBrace | closeBrace | comma | colon | null => simp [spell]
  | bool b => cases b <;> simp [spell]
  | integer n =>
    intro c mem
    have isNumeralChar :=
      Numeral.isNumeralChar_of_mem_numeral (Numeral.toString_mem_numeral n) c mem
    exact Numeral.le_toNat_of_isNumeralChar isNumeralChar
  | decimal numeral => exact (plain numeral rfl).elim
  | string s =>
    have inner : ∀ c ∈ s.toList.flatMap Quoted.escape, 0x20 ≤ c.toNat :=
      List.forall_mem_flatMap.mpr fun c _ => Quoted.le_toNat_of_mem_escape c
    have quote : ∀ c ∈ ['"'], 0x20 ≤ c.toNat := by simp
    exact List.forall_mem_append.mpr ⟨List.forall_mem_append.mpr ⟨quote, inner⟩, quote⟩

/-- Compact text has no control characters, and so no line breaks. -/
theorem le_toNat_of_mem_compact {tree : Json} (plain : tree.Plain) :
    ∀ c ∈ tree.compact.toList, 0x20 ≤ c.toNat := by
  rw [compact, String.toList_ofList, List.forall_mem_flatMap]
  intro token isToken
  exact Token.le_toNat_of_mem_spell fun numeral same => plain numeral (same ▸ isToken)

end Concord.Json
