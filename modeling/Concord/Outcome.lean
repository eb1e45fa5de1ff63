import Concord.Codec

/-! # Outcomes

How a result is shown and compared. A fault is shown by its message. Results agree when all that
are no budget exhaustion are equal: strategies count work in different units, so one may run out
of budget where another finishes, and that is no disagreement.
-/

namespace Concord

/-- A result as it is shown. -/
inductive Outcome where
  | finished (environment : Environment)
  | failed (message : String)
deriving DecidableEq

namespace Outcome

def ofResult : Result → Outcome
  | .ok environment => finished environment
  | .error fault => failed fault.message

def text : Outcome → String
  | finished environment => environment.text
  | failed message => "error: " ++ message

/-- The outcome as an object that says first whether it is finished or failed. -/
def toJson : Outcome → Json
  | finished environment =>
    .object [("status", .string "finished"), ("environment", environment.toJson)]
  | failed message => .object [("status", .string "failed"), ("error", .string message)]

end Outcome

/-- Whether the result is that the budget ran out. -/
def isExhausted : Result → Bool
  | .ok _ => false
  | .error fault => fault.isExhaustion

/-- The results that say something about the program itself. -/
def settled (results : List Result) : List Result :=
  results.filter fun result => !isExhausted result

/-- Whether all settled results are the same. -/
def outcomesAgree (results : List Result) : Bool :=
  match settled results with
  | [] => true
  | first :: rest => rest.all (· = first)

/-- Whether all settled results are the given one. -/
def allSettledAs (expected : Result) (results : List Result) : Bool :=
  (settled results).all (· = expected)

theorem mem_settled_iff (results : List Result) (result : Result) :
    result ∈ settled results ↔ result ∈ results ∧ isExhausted result = false := by
  simp [settled]

theorem outcomesAgree_eq_true_iff (results : List Result) :
    outcomesAgree results = true ↔
      ∀ result ∈ settled results, ∀ other ∈ settled results, result = other := by
  unfold outcomesAgree
  cases settled results with
  | nil => simp
  | cons first rest =>
    simp only [List.all_eq_true, decide_eq_true_eq]
    constructor
    · intro same
      have isFirst : ∀ result ∈ first :: rest, result = first := by simpa using same
      exact fun result member other otherMember =>
        (isFirst result member).trans (isFirst other otherMember).symm
    · exact fun same result member =>
        same result (List.mem_cons_of_mem _ member) first List.mem_cons_self

theorem allSettledAs_eq_true_iff (expected : Result) (results : List Result) :
    allSettledAs expected results = true ↔ ∀ result ∈ settled results, result = expected := by
  simp [allSettledAs]

end Concord
