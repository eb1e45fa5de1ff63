import Concord.Sample

/-! # The catalog

The built-in samples, in the order in which they are listed and run.
-/

namespace Concord.Catalog

def numbers (bindings : List (String × Number)) : Environment :=
  .ofList (bindings.map fun (name, n) => (name, .number n))

/-- The number of an integer that visibly fits. -/
def small (n : Int) (fits : FitsWord n := by decide) : Number := ⟨n, fits⟩

/-- `x = 1 + 1` -/
def assign : Sample where
  name := "assign"
  description := "assignment of a sum"
  statement := .assign "x" (.add (.ofInt 1) (.ofInt 1))
  environment := .empty
  expected := some (.ok (numbers [("x", small 2)]))

/-- `while (x < 5) {x = x * 3}` -/
def whileLoop : Sample where
  name := "while"
  description := "triple x until it reaches 5"
  statement :=
    .whileDo (.lessThan (.var "x") (.ofInt 5)) (.assign "x" (.multiply (.var "x") (.ofInt 3)))
  environment := numbers [("x", small 1)]
  expected := some (.ok (numbers [("x", small 9)]))

/-- `if (2 < 1) {x = 1} else {x = 2}` -/
def branch : Sample where
  name := "if"
  description := "branch on a false comparison"
  statement :=
    .ifThenElse (.lessThan (.ofInt 2) (.ofInt 1)) (.assign "x" (.ofInt 1)) (.assign "x" (.ofInt 2))
  environment := .empty
  expected := some (.ok (numbers [("x", small 2)]))

/-- `x = 1; y = x + 1` -/
def sequence : Sample where
  name := "sequence"
  description := "second statement reads the first one's binding"
  statement := .seq (.assign "x" (.ofInt 1)) (.assign "y" (.add (.var "x") (.ofInt 1)))
  environment := .empty
  expected := some (.ok (numbers [("x", small 1), ("y", small 2)]))

/-- `x = z` -/
def undefined : Sample where
  name := "undefined"
  description := "read of an unbound variable"
  statement := .assign "x" (.var "z")
  environment := .empty
  expected := some (.error (.undefinedVariable "z"))

/-- `acc = 1; while (1 < n) {acc = acc * n; n = n + -1}` -/
def factorial : Sample where
  name := "factorial"
  description := "5! by repeated multiplication"
  statement := .block [
    .assign "acc" (.ofInt 1),
    .whileDo (.lessThan (.ofInt 1) (.var "n")) (.block [
      .assign "acc" (.multiply (.var "acc") (.var "n")),
      .assign "n" (.add (.var "n") (.ofInt (-1)))])]
  environment := numbers [("n", small 5)]
  expected := some (.ok (numbers [("acc", small 120), ("n", small 1)]))

/-- `x = flag + 1` -/
def typeMismatch : Sample where
  name := "type-mismatch"
  description := "arithmetic on a boolean"
  statement := .assign "x" (.add (.var "flag") (.ofInt 1))
  environment := .ofList [("flag", .boolean true)]
  expected := some (.error (.typeMismatch "cannot apply '+' to boolean and number"))

/-- `while (true) {do-nothing}` -/
def forever : Sample where
  name := "forever"
  description := "a loop whose condition never becomes false"
  statement := .whileDo (.literal (.boolean true)) .skip
  environment := .empty
  expected := none

def samples : List Sample :=
  [assign, whileLoop, branch, sequence, undefined, factorial, typeMismatch, forever]

def find? (name : String) : Option Sample :=
  samples.find? fun sample => sample.name = name

end Concord.Catalog
