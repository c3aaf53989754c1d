/-
  Facts: typed records of values, and the handles that name them in a session.
-/
import RuleNet.Value.Equality

namespace RuleNet

/-- The name of one fact in a session; handles count up from 1 and are never used twice. -/
abbrev Handle := Nat

/-- How messages write a handle. -/
def Handle.toText (h : Handle) : String := "#" ++ toString h

/-- A record of a declared type. -/
structure Fact where
  type : String
  fields : Entries Value
  deriving Inhabited, DecidableEq, BEq

namespace Fact

/-- The fact with the given fields; of a repeated name the last one stays. -/
def ofFields (type : String) (fields : List (String × Value)) : Fact :=
  ⟨type, Entries.ofList fields⟩

/-- The value of a field, null if the fact has no such field. -/
def value (fact : Fact) (field : String) : Value := (fact.fields.find? field).getD .null

/-- The fact with one field changed. -/
def set (fact : Fact) (field : String) (value : Value) : Fact :=
  { fact with fields := fact.fields.insert field value }

/-- The fact with fields changed one after the other. -/
def setAll (fact : Fact) (changes : List (String × Value)) : Fact :=
  changes.foldl (fun fact change => fact.set change.1 change.2) fact

end Fact

end RuleNet
