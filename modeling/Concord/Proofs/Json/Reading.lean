import Concord.Json.Compact
import Concord.Json.Reader
import Concord.Proofs.Json.Scanning

/-! # Reading trees

`parse?_eq_some_iff`: a text is read as a tree exactly if the grammar has it stand for that tree. A
place between two tokens determines the tokens before it, `Place.consumed`, and each token that is
read only adds itself to them; the other way round, the tokens of a tree lead from before it to
behind it whatever is open around.
-/

namespace Concord.Json

open Grammar Language

/-! ## Tokens and text -/

theorem Token.spaced_append (front back : List Token) :
    spaced (front ++ back) = spaced front * spaced back := by
  induction front with
  | nil => simp [spaced]
  | cons token front ih => simp only [List.cons_append, spaced, ih, mul_assoc]

mutual

/-- The tokens of a tree are written as the tree is. -/
theorem spaced_tokens (tree : Json) : Token.spaced tree.tokens = tree.spelled * blanks := by
  match tree with
  | null | bool true | bool false | integer _ | decimal _ | string _ =>
    simp [tokens, spelled, Token.spaced, Token.lexemes]
  | array [] | object [] => simp [tokens, spelled, Token.spaced, Token.lexemes, mul_assoc]
  | array (item :: items) =>
    simp only [tokens, spelled, Token.spaced, Token.spaced_append, Token.lexemes,
      spaced_tokens item, spaced_itemTokens items, mul_assoc]
  | object ((key, value) :: members) =>
    simp only [tokens, spelled, Token.spaced, Token.spaced_append, Token.lexemes,
      spaced_tokens value, spaced_memberTokens members, mul_assoc]

theorem spaced_itemTokens (items : List Json) :
    Token.spaced (itemTokens items) = moreItems items * blanks := by
  match items with
  | [] => simp [itemTokens, moreItems, Token.spaced, Token.lexemes]
  | item :: items =>
    simp only [itemTokens, moreItems, Token.spaced, Token.spaced_append, Token.lexemes,
      spaced_tokens item, spaced_itemTokens items, mul_assoc]

theorem spaced_memberTokens (members : List (String × Json)) :
    Token.spaced (memberTokens members) = moreMembers members * blanks := by
  match members with
  | [] => simp [memberTokens, moreMembers, Token.spaced, Token.lexemes]
  | (key, value) :: members =>
    simp only [memberTokens, moreMembers, Token.spaced, Token.spaced_append, Token.lexemes,
      spaced_tokens value, spaced_memberTokens members, mul_assoc]

end

namespace Token

theorem Separated.cons_of_closed {token : Token} {tokens : List Token}
    (isClosed : token.closed = true) (rest : Separated tokens) : Separated (token :: tokens) :=
  List.isChain_cons.mpr ⟨fun _ _ => .inl isClosed, rest⟩

theorem Separated.cons_before_closed {token : Token} {tokens : List Token}
    (nextClosed : ∀ next ∈ tokens.head?, next.closed = true) (rest : Separated tokens) :
    Separated (token :: tokens) :=
  List.isChain_cons.mpr ⟨fun next isNext => .inr (nextClosed next isNext), rest⟩

end Token

/-- What follows an item begins with a mark. -/
private theorem closed_head_itemTokens (items : List Json) (more : List Token) :
    ∀ next ∈ (itemTokens items ++ more).head?, next.closed = true := by
  cases items <;> simp [itemTokens, Token.closed]

private theorem closed_head_memberTokens (members : List (String × Json)) (more : List Token) :
    ∀ next ∈ (memberTokens members ++ more).head?, next.closed = true := by
  match members with
  | [] | (key, value) :: members => simp [memberTokens, Token.closed]

mutual

/-- The tokens of a tree do not run into each other, nor into a mark behind them. -/
theorem separated_tokens (tree : Json) {more : List Token} (rest : Token.Separated more)
    (nextClosed : ∀ next ∈ more.head?, next.closed = true) :
    Token.Separated (tree.tokens ++ more) := by
  match tree with
  | null | bool _ | integer _ | decimal _ | string _ => exact rest.cons_before_closed nextClosed
  | array [] | object [] => exact (rest.cons_of_closed rfl).cons_of_closed rfl
  | array (item :: items) =>
    simp only [tokens, List.cons_append, List.append_assoc]
    refine .cons_of_closed rfl (separated_tokens item ?_ (closed_head_itemTokens items more))
    exact separated_itemTokens items rest
  | object ((key, value) :: members) =>
    simp only [tokens, List.cons_append, List.append_assoc]
    refine .cons_of_closed rfl (.cons_of_closed rfl (.cons_of_closed rfl ?_))
    refine separated_tokens value ?_ (closed_head_memberTokens members more)
    exact separated_memberTokens members rest

theorem separated_itemTokens (items : List Json) {more : List Token}
    (rest : Token.Separated more) : Token.Separated (itemTokens items ++ more) := by
  match items with
  | [] => exact rest.cons_of_closed rfl
  | item :: items =>
    simp only [itemTokens, List.cons_append, List.append_assoc]
    refine .cons_of_closed rfl (separated_tokens item ?_ (closed_head_itemTokens items more))
    exact separated_itemTokens items rest

theorem separated_memberTokens (members : List (String × Json)) {more : List Token}
    (rest : Token.Separated more) : Token.Separated (memberTokens members ++ more) := by
  match members with
  | [] => exact rest.cons_of_closed rfl
  | (key, value) :: members =>
    simp only [memberTokens, List.cons_append, List.append_assoc]
    refine .cons_of_closed rfl (.cons_of_closed rfl (.cons_of_closed rfl ?_))
    refine separated_tokens value ?_ (closed_head_memberTokens members more)
    exact separated_memberTokens members rest

end

/-! ## From tokens to trees -/

/-- The tokens of the items before this one, last first, each with its comma. -/
def itemsBefore (before : List Json) : List Token :=
  before.reverse.flatMap fun item => item.tokens ++ [.comma]

/-- The tokens of the members before this one, last first, each with its comma. -/
def membersBefore (before : List (String × Json)) : List Token :=
  before.reverse.flatMap fun member =>
    .string member.1 :: .colon :: (member.2.tokens ++ [.comma])

/-- The tokens of an array or object that is still open, as far as it has been read. -/
def Open.tokens : Open → List Token
  | .array before => .openBracket :: itemsBefore before
  | .object before key => .openBrace :: (membersBefore before ++ [.string key, .colon])

def openTokens (around : List Open) : List Token :=
  around.reverse.flatMap Open.tokens

/-- The tokens before a place. -/
def Place.consumed : Place → List Token
  | value around => openTokens around
  | firstItem around => openTokens around ++ [.openBracket]
  | firstMember around => openTokens around ++ [.openBrace]
  | nextMember around before => openTokens around ++ .openBrace :: membersBefore before
  | colon around before key =>
    openTokens around ++ .openBrace :: (membersBefore before ++ [.string key])
  | done around tree => openTokens around ++ tree.tokens

@[simp] theorem itemsBefore_nil : itemsBefore [] = [] := rfl

@[simp] theorem membersBefore_nil : membersBefore [] = [] := rfl

@[simp] theorem openTokens_nil : openTokens [] = [] := rfl

@[simp] theorem itemsBefore_cons (item : Json) (before : List Json) :
    itemsBefore (item :: before) = itemsBefore before ++ (item.tokens ++ [.comma]) := by
  simp [itemsBefore]

@[simp] theorem membersBefore_cons (key : String) (value : Json) (before : List (String × Json)) :
    membersBefore ((key, value) :: before) =
      membersBefore before ++ .string key :: .colon :: (value.tokens ++ [.comma]) := by
  simp [membersBefore]

@[simp] theorem openTokens_cons (inner : Open) (around : List Open) :
    openTokens (inner :: around) = openTokens around ++ inner.tokens := by
  simp [openTokens]

private theorem itemTokens_append (front : List Json) (last : Json) :
    itemTokens (front ++ [last]) =
      .comma :: (front.flatMap (fun item => item.tokens ++ [.comma]) ++ last.tokens ++
        [.closeBracket]) := by
  induction front with
  | nil => simp [itemTokens]
  | cons item front ih => simp [itemTokens, ih]

private theorem memberTokens_append (front : List (String × Json)) (key : String) (last : Json) :
    memberTokens (front ++ [(key, last)]) =
      .comma :: (front.flatMap (fun member =>
        .string member.1 :: .colon :: (member.2.tokens ++ [.comma])) ++
        .string key :: .colon :: (last.tokens ++ [.closeBrace])) := by
  induction front with
  | nil => simp [memberTokens]
  | cons member front ih => simp [memberTokens, ih]

/-- A closed array has the tokens that it had while it was open. -/
theorem tokens_array_reverse_append (before : List Json) (last : Json) :
    (array (before.reverse ++ [last])).tokens =
      .openBracket :: (itemsBefore before ++ (last.tokens ++ [.closeBracket])) := by
  rw [itemsBefore]
  cases before.reverse with
  | nil => simp [tokens, itemTokens]
  | cons item front => simp [tokens, itemTokens_append]

theorem tokens_object_reverse_append (before : List (String × Json)) (key : String) (last : Json) :
    (object (before.reverse ++ [(key, last)])).tokens =
      .openBrace :: (membersBefore before ++
        .string key :: .colon :: (last.tokens ++ [.closeBrace])) := by
  rw [membersBefore]
  cases before.reverse with
  | nil => simp [tokens, memberTokens]
  | cons member front => simp [tokens, memberTokens_append]

theorem Place.consumed_begin? {around : List Open} {token : Token} {place : Place}
    (step : begin? around token = some place) : place.consumed = openTokens around ++ [token] := by
  unfold begin? at step
  split at step <;> cases step <;> simp [consumed, tokens]

/-- A token that is read has been read, and nothing else has. -/
theorem Place.consumed_next? {place next : Place} {token : Token}
    (step : place.next? token = some next) : next.consumed = place.consumed ++ [token] := by
  unfold next? at step
  split at step
  · exact consumed_begin? step
  · cases step
    simp [consumed, tokens]
  · rw [consumed_begin? step]
    simp [consumed, Open.tokens]
  all_goals cases step
  all_goals
    simp [consumed, Open.tokens, tokens, tokens_array_reverse_append, tokens_object_reverse_append]

theorem Place.consumed_foldlM {place last : Place} {tokens : List Token}
    (run : tokens.foldlM next? place = some last) : last.consumed = place.consumed ++ tokens := by
  induction tokens generalizing place with
  | nil =>
    cases run
    exact (List.append_nil _).symm
  | cons token tokens ih =>
    rw [List.foldlM_cons] at run
    obtain ⟨next, step, run⟩ := Option.bind_eq_some_iff.mp run
    rw [ih run, consumed_next? step, List.append_assoc, List.singleton_append]

/-! ## From trees to tokens -/

/-- An item can begin behind an opening bracket as it can behind a comma. -/
private theorem foldlM_firstItem (around : List Open) (tree : Json) (more : List Token) :
    (tree.tokens ++ more).foldlM Place.next? (.firstItem around) =
      (tree.tokens ++ more).foldlM Place.next? (.value (.array [] :: around)) := by
  match tree with
  | null | bool _ | integer _ | decimal _ | string _ => rfl
  | array [] | array (_ :: _) | object [] | object (_ :: _) => simp only [tokens]; rfl

mutual

/-- The tokens of a tree lead behind it, whatever is open around. -/
theorem foldlM_tokens (tree : Json) (around : List Open) :
    tree.tokens.foldlM Place.next? (.value around) = some (.done around tree) := by
  match tree with
  | null | bool _ | integer _ | decimal _ | string _ | array [] | object [] => rfl
  | array (item :: items) =>
    rw [tokens]
    change (item.tokens ++ itemTokens items).foldlM Place.next? (.firstItem around) = _
    rw [foldlM_firstItem, List.foldlM_append, foldlM_tokens item]
    exact foldlM_itemTokens items around [] item
  | object ((key, value) :: members) =>
    rw [tokens]
    change (value.tokens ++ memberTokens members).foldlM Place.next?
      (.value (.object [] key :: around)) = _
    rw [List.foldlM_append, foldlM_tokens value]
    exact foldlM_memberTokens members around [] key value

theorem foldlM_itemTokens (items : List Json) (around : List Open) (before : List Json)
    (last : Json) :
    (itemTokens items).foldlM Place.next? (.done (.array before :: around) last) =
      some (.done around (.array (before.reverse ++ last :: items))) := by
  match items with
  | [] =>
    rw [itemTokens, ← List.reverse_cons]
    rfl
  | item :: items =>
    rw [itemTokens]
    change (item.tokens ++ itemTokens items).foldlM Place.next?
      (.value (.array (last :: before) :: around)) = _
    rw [List.foldlM_append, foldlM_tokens item, List.append_cons, ← List.reverse_cons]
    exact foldlM_itemTokens items around (last :: before) item

theorem foldlM_memberTokens (members : List (String × Json)) (around : List Open)
    (before : List (String × Json)) (key : String) (last : Json) :
    (memberTokens members).foldlM Place.next? (.done (.object before key :: around) last) =
      some (.done around (.object (before.reverse ++ (key, last) :: members))) := by
  match members with
  | [] =>
    rw [memberTokens, ← List.reverse_cons]
    rfl
  | (next, value) :: members =>
    rw [memberTokens]
    change (value.tokens ++ memberTokens members).foldlM Place.next?
      (.value (.object ((key, last) :: before) next :: around)) = _
    rw [List.foldlM_append, foldlM_tokens value, List.append_cons, ← List.reverse_cons]
    exact foldlM_memberTokens members around ((key, last) :: before) next value

end

/-- A list of tokens is read as a tree exactly if they are the tokens of that tree. -/
theorem ofTokens?_eq_some_iff {read : List Token} {tree : Json} :
    ofTokens? read = some tree ↔ read = tree.tokens := by
  unfold ofTokens?
  constructor
  · intro success
    split at success
    · next run =>
      cases success
      exact (Place.consumed_foldlM run).symm
    · cases success
  · rintro rfl
    rw [foldlM_tokens]

/-- A text is read as a tree exactly if it stands for that tree. -/
theorem parse?_eq_some_iff {text : String} {tree : Json} :
    parse? text = some tree ↔ text.toList ∈ tree.texts := by
  unfold parse? texts
  rw [Option.bind_eq_some_iff, mul_assoc, ← spaced_tokens]
  constructor
  · rintro ⟨read, scanned, success⟩
    rw [ofTokens?_eq_some_iff.mp success] at scanned
    exact Token.mem_spaced_of_scan? scanned
  · rintro ⟨front, areBlanks, back, isTree, same⟩
    refine ⟨tree.tokens, ?_, ofTokens?_eq_some_iff.mpr rfl⟩
    have nothing : ∀ next ∈ ([] : List Token).head?, next.closed = true := nofun
    have separated := separated_tokens tree .nil nothing
    rw [List.append_nil] at separated
    rw [← same]
    exact (Token.scan?_blanks areBlanks back).trans (Token.scan?_of_mem_spaced separated isTree)

end Concord.Json
