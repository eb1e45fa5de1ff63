import Concord.Environment.Basic
import Concord.Lines
import Concord.Stmt

/-! # Sample programs

A sample is a statement with a name, an environment to start from, and the result that every
strategy has to reach. A sample without such a result never ends on its own.
-/

namespace Concord

/-- A named program and what is to come of it. -/
structure Sample where
  name : String
  description : String
  statement : Stmt
  environment : Environment
  /-- The result that has to come out; none for a program that never ends. -/
  expected : Option Result

namespace Sample

def diverges (sample : Sample) : Bool := sample.expected.isNone

/-- Two lines that present a sample: name and description, then the program and its start. -/
def listing (sample : Sample) : List String :=
  [Lines.padded 14 sample.name ++ " " ++ sample.description,
    Lines.padded 14 "" ++ " " ++ sample.statement.text ++ ", " ++ sample.environment.text]

def listingText (samples : List Sample) : String :=
  Lines.terminated (samples.flatMap listing)

end Sample

end Concord
