import Concord.Outcome
import Mathlib.Data.List.Perm.Basic

/-! # Agreement as a matter of settled results

Agreement compares each settled result with the first one. Which of them comes first does not
matter, nor how often it occurs, nor what has run out of budget before it or in between: what counts
is which settled results there are, `outcomesAgree_congr`. Two results are the same when they are
shown alike, `Outcome.ofResult_injective`.
-/

namespace Concord

/-- The letter that the message of a fault begins with. -/
def Fault.initial : Fault → Char
  | undefinedVariable _ => 'u'
  | typeMismatch _ => 't'
  | arithmeticOverflow _ => 'a'
  | stepLimitExceeded _ => 's'
  | irreducible _ => 'c'

theorem Fault.head?_message (fault : Fault) :
    fault.message.toList.head? = some fault.initial := by
  cases fault with
  | undefinedVariable name =>
    change ("undefined variable: " ++ name).toList.head? = some 'u'
    simp
  | typeMismatch detail =>
    change ("type mismatch: " ++ detail).toList.head? = some 't'
    simp
  | arithmeticOverflow detail =>
    change ("arithmetic overflow: " ++ detail).toList.head? = some 'a'
    simp
  | stepLimitExceeded limit =>
    change ("step limit exceeded after " ++ toString limit.toNat ++ " steps").toList.head? =
      some 's'
    simp
  | irreducible term =>
    change ("cannot reduce normal form: " ++ term).toList.head? = some 'c'
    simp

/-- The wording says which fault it is and what it names. -/
theorem Fault.message_injective : Function.Injective Fault.message := by
  intro fault other same
  have initials : fault.initial = other.initial := by
    rw [← Option.some.injEq, ← head?_message, ← head?_message, same]
  cases fault <;> cases other <;> try cases initials
  case stepLimitExceeded limit otherLimit =>
    have digits : toString limit.toNat = toString otherLimit.toNat :=
      (String.append_right_inj _).mp ((String.append_left_inj _).mp same)
    have number := congrArg (Nat.ofDigitChars 10 · 0) (congrArg String.toList digits)
    simp only [Nat.toString_eq_ofList_toDigits, String.toList_ofList,
      Nat.ofDigitChars_ten_toDigits] at number
    rw [UInt64.toNat_inj.mp number]
  all_goals exact congrArg _ ((String.append_right_inj _).mp same)

/-- No two results are shown alike. -/
theorem Outcome.ofResult_injective : Function.Injective Outcome.ofResult := by
  intro result other same
  cases result with
  | ok environment =>
    cases other with
    | ok => rw [Outcome.finished.inj same]
    | error => cases same
  | error fault =>
    cases other with
    | ok => cases same
    | error => rw [Fault.message_injective (Outcome.failed.inj same)]

theorem isExhausted_eq_false_iff (result : Result) :
    isExhausted result = false ↔ ∀ limit, result ≠ .error (.stepLimitExceeded limit) := by
  cases result with
  | ok => simp [isExhausted]
  | error fault =>
    rw [isExhausted, ← Bool.not_eq_true, Fault.isExhaustion_eq_true_iff, not_exists]
    simp only [ne_eq, Except.error.injEq]

/-- Lists with the same settled results agree together or disagree together. -/
theorem outcomesAgree_congr {results others : List Result}
    (alike : ∀ result, result ∈ settled results ↔ result ∈ settled others) :
    outcomesAgree results = outcomesAgree others := by
  rw [Bool.eq_iff_iff, outcomesAgree_eq_true_iff, outcomesAgree_eq_true_iff]
  simp only [alike]

/-- What is added to a list does not matter if it has been there before or is an exhaustion. -/
theorem outcomesAgree_insert {before added after : List Result}
    (idle : ∀ result ∈ added, result ∈ before ++ after ∨ isExhausted result = true) :
    outcomesAgree (before ++ added ++ after) = outcomesAgree (before ++ after) := by
  refine outcomesAgree_congr fun result => ?_
  rw [mem_settled_iff, mem_settled_iff]
  refine and_congr_left fun isSettled => ⟨fun member => ?_, fun member => ?_⟩
  · obtain (isBefore | isAdded) | isAfter := by simpa only [List.mem_append] using member
    · exact List.mem_append_left _ isBefore
    · obtain present | exhausted := idle result isAdded
      · exact present
      · rw [isSettled] at exhausted
        cases exhausted
    · exact List.mem_append_right _ isAfter
  · obtain isBefore | isAfter := List.mem_append.mp member
    · exact List.mem_append_left _ (List.mem_append_left _ isBefore)
    · exact List.mem_append_right _ isAfter

/-- A list of results agrees when any two of them are equal that are no exhaustion, which is to say
that they are shown alike. So the answer is that of any list with the same settled results: order
does not matter, nor repetition, nor exhaustions anywhere; and with a list each sublist agrees. -/
theorem outcomesAgree_iff_settled_equal (results : List Result) :
    (outcomesAgree results = true ↔ ∀ result ∈ results, ∀ other ∈ results,
      (∀ limit, result ≠ .error (.stepLimitExceeded limit)) →
      (∀ limit, other ≠ .error (.stepLimitExceeded limit)) → result = other) ∧
    (∀ result other : Result, result = other ↔ Outcome.ofResult result = .ofResult other) ∧
    (∀ others, (∀ result, (∀ limit, result ≠ .error (.stepLimitExceeded limit)) →
      (result ∈ results ↔ result ∈ others)) → outcomesAgree others = outcomesAgree results) ∧
    (∀ others, others.Perm results → outcomesAgree others = outcomesAgree results) ∧
    (∀ before repeated after, results = before ++ after → repeated ∈ results →
      outcomesAgree (before ++ repeated :: after) = outcomesAgree results) ∧
    (∀ before (limits : List UInt64) after, results = before ++ after →
      outcomesAgree (before ++ limits.map (.error <| .stepLimitExceeded ·) ++ after) =
        outcomesAgree results) ∧
    ∀ part, part.Sublist results → outcomesAgree results = true → outcomesAgree part = true := by
  have pairwise (listed : List Result) : outcomesAgree listed = true ↔
      ∀ result ∈ listed, ∀ other ∈ listed,
        (∀ limit, result ≠ .error (.stepLimitExceeded limit)) →
        (∀ limit, other ≠ .error (.stepLimitExceeded limit)) → result = other := by
    simp only [outcomesAgree_eq_true_iff, mem_settled_iff, isExhausted_eq_false_iff]
    exact ⟨fun same result member other otherMember isSettled otherSettled =>
        same result ⟨member, isSettled⟩ other ⟨otherMember, otherSettled⟩,
      fun same result member other otherMember =>
        same result member.1 other otherMember.1 member.2 otherMember.2⟩
  refine ⟨pairwise results, fun _ _ => Outcome.ofResult_injective.eq_iff.symm, ?_, ?_, ?_, ?_, ?_⟩
  · intro others alike
    refine outcomesAgree_congr fun result => ?_
    rw [mem_settled_iff, mem_settled_iff, isExhausted_eq_false_iff]
    exact and_congr_left fun isSettled => (alike result isSettled).symm
  · intro others reordered
    refine outcomesAgree_congr fun result => ?_
    rw [mem_settled_iff, mem_settled_iff, reordered.mem_iff]
  · rintro before repeated after rfl present
    have added : outcomesAgree (before ++ [repeated] ++ after) = outcomesAgree (before ++ after) :=
      outcomesAgree_insert fun result member => .inl (List.mem_singleton.mp member ▸ present)
    rwa [List.append_assoc, List.singleton_append] at added
  · rintro before limits after rfl
    refine outcomesAgree_insert fun result member => ?_
    obtain ⟨limit, _, rfl⟩ := List.mem_map.mp member
    exact .inr rfl
  · intro part within agree
    rw [pairwise] at agree ⊢
    exact fun result member other otherMember =>
      agree result (within.subset member) other (within.subset otherMember)

/-- Two runs that finish alike agree behind one that runs out of budget: in another order, with more
of the same, and when one of them is missing. -/
theorem outcomesAgree_iff_settled_equal_behind_exhaustion :
    let exhausted (limit : UInt64) : Result := .error (.stepLimitExceeded limit)
    let done : Result := .ok .empty
    outcomesAgree [exhausted 3, done, done] = true ∧
    outcomesAgree [done, exhausted 3, done] = true ∧
    outcomesAgree [exhausted 3, exhausted 3, done, done] = true ∧
    outcomesAgree [exhausted 3, done, exhausted 7, exhausted 0, done] = true ∧
    outcomesAgree [exhausted 3, done] = true := by
  intro exhausted done
  obtain ⟨pairwise, _, _, reordered, repeated, refused, part⟩ :=
    outcomesAgree_iff_settled_equal [exhausted 3, done, done]
  have agree : outcomesAgree [exhausted 3, done, done] = true :=
    pairwise.mpr (by simp [exhausted])
  refine ⟨agree, ?_, ?_, ?_, part _ (.cons_cons _ (List.sublist_cons_self ..)) agree⟩
  · exact (reordered _ (.swap ..)).trans agree
  · exact (repeated [] (exhausted 3) _ rfl List.mem_cons_self).trans agree
  · exact (refused [exhausted 3, done] [7, 0] [done] rfl).trans agree

end Concord
