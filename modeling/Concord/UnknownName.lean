import Concord.Catalog
import Concord.Strategy

/-! # Unknown names

Samples and strategies are asked for by name. A name that is none of theirs is an error that names
it.
-/

namespace Concord

/-- A name that nothing has. -/
inductive UnknownName where
  | sample (name : String)
  | strategy (name : String)
deriving DecidableEq

def UnknownName.message : UnknownName → String
  | sample name => "unknown sample program: " ++ name ++ " (try --list)"
  | strategy name => "unknown strategy: " ++ name

def Catalog.get (name : String) : Except UnknownName Sample :=
  match find? name with
  | some sample => .ok sample
  | none => .error (.sample name)

def Strategy.get (name : String) : Except UnknownName Strategy :=
  match ofName? name with
  | some strategy => .ok strategy
  | none => .error (.strategy name)

end Concord
