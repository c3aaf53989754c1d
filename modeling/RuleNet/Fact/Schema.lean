/-
  Fact types: the fields a fact may have, and whether facts of the type are events in time.

  * `FactType.check` accepts a fact or says which field is wrong.
  * `FactType.moment`: when an event happened.
-/
import RuleNet.Fact.Basic

namespace RuleNet

/-- The declared kind of a field. -/
inductive FieldType where
  | text
  | integer
  | double
  | number
  | boolean
  | array
  | object
  | date
  | any
  deriving DecidableEq, Inhabited

namespace FieldType

/-- How messages write a field type. -/
def title : FieldType → String
  | text => "String"
  | integer => "Integer"
  | double => "Float"
  | number => "Number"
  | boolean => "Boolean"
  | array => "Array"
  | object => "Object"
  | date => "Date"
  | any => "Any"

/-- Null fits everywhere, and an integer also where a double is declared. -/
def accepts : FieldType → Value → Bool
  | _, .null => true
  | any, _ => true
  | text, .text _ => true
  | integer, .integer _ => true
  | double, .double _ => true
  | double, .integer _ => true
  | number, .double _ => true
  | number, .integer _ => true
  | boolean, .boolean _ => true
  | array, .array _ => true
  | object, .object _ => true
  | date, .date _ => true
  | _, _ => false

/-- Whether the field can hold numbers. -/
def isNumeric : FieldType → Bool
  | integer | double | number | any => true
  | _ => false

end FieldType

/-- Whether facts of a type stand for states or for events at a moment. -/
inductive Role where
  | fact
  | event
  deriving DecidableEq, Inhabited

/-- The declaration of a fact type. -/
structure FactType where
  name : String
  fields : Entries FieldType
  role : Role
  /-- The field that tells when an event happened. -/
  timestamp : Option String
  /-- How long after its moment an event is retracted by itself. -/
  expiresAfter : Option Span
  deriving DecidableEq, Inhabited

/-- Why a fact does not fit its declaration. -/
inductive SchemaDefect where
  | notAnObject
  | unreadable (field problem : String)
  | undeclaredField (field : String)
  | wrongKind (field : String) (expected : FieldType) (actual : String)
  | badTimestamp (field : String)
  | typeChange (handle : Handle) (type : String)
  | undeclaredType
  deriving DecidableEq

namespace SchemaDefect

def message : SchemaDefect → String
  | notAnObject => "fact payload must be a JSON object"
  | unreadable field problem => "field '" ++ field ++ "': " ++ problem
  | undeclaredField field => "undeclared field '" ++ field ++ "'"
  | wrongKind field expected actual =>
    "field '" ++ field ++ "' expects " ++ expected.title ++ ", got " ++ actual
  | badTimestamp field => "timestamp field '" ++ field ++ "' must be epoch millis or a date"
  | typeChange handle type =>
    "update of " ++ handle.toText ++ " cannot change its type to '" ++ type ++ "'"
  | undeclaredType => "fact type is not declared"

end SchemaDefect

namespace FactType

/-- A declaration from its fields in order; a timestamp field that is not among them takes any
    value. -/
def declare (name : String) (role : Role) (fields : List (String × FieldType))
    (timestamp : Option String) (expiresAfter : Option Span) : FactType :=
  let declared : Entries FieldType := Entries.ofList fields
  let fields := match timestamp with
    | some field => if declared.contains field then declared else declared.insert field .any
    | none => declared
  ⟨name, fields, role, timestamp, expiresAfter⟩

def isEvent (type : FactType) : Bool := type.role == .event

def hasField (type : FactType) (field : String) : Bool := type.fields.contains field

/-- The first field, in order of names, that does not fit. -/
def badField? (type : FactType) : Entries Value → Option SchemaDefect
  | [] => none
  | (field, value) :: rest => match type.fields.find? field with
    | none => some (.undeclaredField field)
    | some expected =>
      if expected.accepts value then badField? type rest
      else some (.wrongKind field expected value.kindName)

/-- Whether the timestamp field holds something that is not a moment. -/
def badTimestamp? (type : FactType) (fact : Fact) : Option SchemaDefect := do
  let field ← type.timestamp
  let value := fact.value field
  if !value.isNull && value.asMoment?.isNone then some (.badTimestamp field) else none

/-- Whether a fact fits its declaration. -/
def check (type : FactType) (fact : Fact) : Except SchemaDefect Unit :=
  match type.badField? fact.fields with
  | some defect => .error defect
  | none => match type.badTimestamp? fact with
    | some defect => .error defect
    | none => .ok ()

/-- When the fact happened: what its timestamp field says, or else the given moment. -/
def moment (type : FactType) (fact : Fact) (otherwise : Moment) : Moment :=
  ((type.timestamp.bind fun field => fact.fields.find? field).bind Value.asMoment?).getD otherwise

end FactType

end RuleNet
