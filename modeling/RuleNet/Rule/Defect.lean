/-
  Defects: what can be wrong with the declarations of a rule base, and how it is reported.
-/
import RuleNet.Fact.Schema
import RuleNet.Rule.Pattern

namespace RuleNet

/-- The most alternatives one condition may expand into. -/
def maxBranches : Nat := 256

/-- Where a pattern must not bind variables. -/
inductive Enclosure where
  | absence
  | universal
  | accumulate
  deriving DecidableEq

def Enclosure.title : Enclosure → String
  | absence => "not/exists"
  | universal => "forall"
  | accumulate => "accumulate"

/-- What is wrong with a declaration. -/
inductive Defect where
  | repeatedType
  | emptyName
  | repeatedRule
  | emptyGroup
  | repeatedQuery
  | tooManyBranches (count : Nat)
  | endlessBranches
  | emptyDisjunction
  | wideAbsence
  | widePresence
  | rebound (name : String)
  | unbound (name : String)
  | comparesFact (name : String)
  | unusable (name : String)
  | notAFact (name : String)
  | notAnEvent (name : String)
  | unknownType (type : String)
  | unknownField (type field : String)
  | unknownBoundField (name type field : String)
  | temporalOnState (type : String)
  | windowOnState (type : String)
  | emptyWindow
  | bindsInside (enclosure : Enclosure) (type : String)
  | notNumeric (fold field : String) (declared : FieldType)
  deriving DecidableEq

namespace Defect

def message : Defect → String
  | repeatedType => "fact type declared twice"
  | emptyName => "rule name must not be empty"
  | repeatedRule => "duplicate rule name"
  | emptyGroup => "agenda group must not be empty"
  | repeatedQuery => "duplicate query name"
  | tooManyBranches count =>
    "condition expands to " ++ toString count ++ " alternatives (limit " ++
      toString maxBranches ++ ")"
  | endlessBranches => "condition expands to more than " ++ toString maxBranches ++ " alternatives"
  | emptyDisjunction => "empty disjunction"
  | wideAbsence => "negation scope must be a single pattern"
  | widePresence => "existential scope must be a single pattern"
  | rebound name => "variable '" ++ name ++ "' is already bound"
  | unbound name => "unbound variable '" ++ name ++ "'"
  | comparesFact name => "'" ++ name ++ "' is a fact variable; compare one of its fields instead"
  | unusable name => "variable '" ++ name ++ "' is not usable here"
  | notAFact name => "'" ++ name ++ "' is not a fact variable"
  | notAnEvent name => "'" ++ name ++ "' is not bound to an event"
  | unknownType type => "unknown fact type '" ++ type ++ "'"
  | unknownField type field => "fact type '" ++ type ++ "' has no field '" ++ field ++ "'"
  | unknownBoundField name type field =>
    "cannot bind '" ++ name ++ "': fact type '" ++ type ++ "' has no field '" ++ field ++ "'"
  | temporalOnState type =>
    "temporal operators need an event pattern; '" ++ type ++ "' is not an event type"
  | windowOnState type => "windows apply to event types only; '" ++ type ++ "' is not an event type"
  | emptyWindow => "length window must hold at least one event"
  | bindsInside enclosure type =>
    "patterns inside " ++ enclosure.title ++ " cannot bind variables ('" ++ type ++ "')"
  | notNumeric fold field declared =>
    fold ++ " needs a numeric field; '" ++ field ++ "' is " ++ declared.title

end Defect

/-- A defect and the rule, query or fact type that has it. -/
structure Problem where
  owner : String
  defect : Defect
  deriving DecidableEq

def Problem.message (p : Problem) : String := p.owner ++ ": " ++ p.defect.message

end RuleNet
