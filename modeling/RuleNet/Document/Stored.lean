/-
  The stored form of declarations and values: documents from which they can be read back.

  A value of a kind with several cases is stored as an object with one entry, named for the case, or
  as that name alone if the case holds nothing. A record is an object with an entry for each part.

  * `Value.store`, `Pattern.store`, `FactType.store`, `Fact.store`, `Fold.store`, `Settings.store`
    write; the functions `restore?` beside them read back.
-/
import RuleNet.Document.Basic
import RuleNet.Fact.Schema
import RuleNet.Rule.Pattern
import RuleNet.Settings

namespace RuleNet

namespace Document

/-! ## Parts -/

/-- A case that holds something. -/
def case (name : String) (body : Document) : Document := .object [(name, body)]

/-- The part of a record under a name. -/
def part? (name : String) : Document → Option Document
  | .object entries => Entries.find? name entries
  | _ => none

def text? : Document → Option String
  | .text s => some s
  | _ => none

def natural? : Document → Option Nat
  | .integer n => if 0 ≤ n then some n.toNat else none
  | _ => none

/-- A part that may be missing. -/
def optional {α : Type} (store : α → Document) : Option α → Document
  | some a => store a
  | none => .null

/-- Read a part that may be missing. -/
def optional? {α : Type} (restore? : Document → Option α) : Option Document → Option (Option α)
  | none => some none
  | some .null => some none
  | some document => (restore? document).map some

/-- Read a list. -/
def list? {α : Type} (restore? : Document → Option α) : Document → Option (List α)
  | .array items => items.mapM restore?
  | _ => none

end Document

open Document

/-! ## Values -/

namespace Value

mutual

/-- The stored form of a value. -/
def store : Value → Document
  | .null => .text "Null"
  | .boolean b => case "Boolean" (.boolean b)
  | .integer i => case "Integer" (.integer i.toInt)
  | .double x => case "Float" (ofDouble x)
  | .text s => case "String" (.text s)
  | .date t => case "Date" (.text (t.rfc3339 "Z"))
  | .array items => case "Array" (.array (storeItems items))
  | .object entries => case "Object" (.object (storeEntries entries))

def storeItems : List Value → List Document
  | [] => []
  | x :: xs => store x :: storeItems xs

def storeEntries : List (String × Value) → List (String × Document)
  | [] => []
  | (k, x) :: xs => (k, store x) :: storeEntries xs

end

mutual

/-- Read a value back. -/
def restore? : Document → Option Value
  | .text "Null" => some .null
  | .object [("Boolean", .boolean b)] => some (.boolean b)
  | .object [("Integer", .integer n)] =>
    if Integer64.holds n then some (.integer (Int64.ofInt n)) else none
  | .object [("Float", .double x)] => some (.double x)
  | .object [("Float", .integer n)] => some (.double (Binary64.ofInt n))
  | .object [("String", .text s)] => some (.text s)
  | .object [("Date", .text s)] => (Instant.ofRfc3339? s).map .date
  | .object [("Array", .array items)] => (restoreItems? items).map .array
  | .object [("Object", .object entries)] => (restoreEntries? entries).map .object
  | _ => none

def restoreItems? : List Document → Option (List Value)
  | [] => some []
  | x :: xs => do
    let x ← restore? x
    let xs ← restoreItems? xs
    some (x :: xs)

def restoreEntries? : List (String × Document) → Option (List (String × Value))
  | [] => some []
  | (k, x) :: xs => do
    let x ← restore? x
    let xs ← restoreEntries? xs
    some ((k, x) :: xs)

end

end Value

/-! ## Facts -/

def Fact.store (fact : Fact) : Document :=
  ofEntries [("fact_type", .text fact.type), ("fields", .object (Value.storeEntries fact.fields))]

def Fact.restore? (document : Document) : Option Fact := do
  let type ← (← document.part? "fact_type").text?
  match ← document.part? "fields" with
  | .object entries => some ⟨type, ← Value.restoreEntries? entries⟩
  | _ => none

/-! ## Fact types -/

def Span.store (span : Span) : Document :=
  ofEntries [("secs", .integer span.secs), ("nanos", .integer span.subsecNanos)]

def Span.restore? (document : Document) : Option Span := do
  let secs ← (← document.part? "secs").natural?
  let nanos ← (← document.part? "nanos").natural?
  some (Span.ofParts secs nanos)

/-- The stored name of a field type. -/
def FieldType.word : FieldType → String
  | text => "string"
  | integer => "integer"
  | double => "float"
  | number => "number"
  | boolean => "boolean"
  | array => "array"
  | object => "object"
  | date => "date"
  | any => "any"

def FieldType.ofWord? (s : String) : Option FieldType :=
  [text, integer, double, number, boolean, array, object, date, any].find? (·.word == s)

def Role.word : Role → String
  | fact => "fact"
  | event => "event"

def Role.ofWord? (s : String) : Option Role := [fact, event].find? (·.word == s)

def FactType.store (type : FactType) : Document :=
  ofEntries
    [("name", .text type.name),
      ("fields", .object (type.fields.map fun (name, kind) => (name, .text kind.word))),
      ("role", .text type.role.word),
      ("timestamp_field", optional .text type.timestamp),
      ("expires_after", optional Span.store type.expiresAfter)]

def FactType.restore? (document : Document) : Option FactType := do
  let name ← (← document.part? "name").text?
  let fields ← match ← document.part? "fields" with
    | .object entries => entries.mapM fun (name, kind) => do
      some (name, ← FieldType.ofWord? (← kind.text?))
    | _ => none
  let role ← Role.ofWord? (← (← document.part? "role").text?)
  let timestamp ← optional? text? (document.part? "timestamp_field")
  let expiresAfter ← optional? Span.restore? (document.part? "expires_after")
  some ⟨name, fields, role, timestamp, expiresAfter⟩

/-! ## Patterns -/

/-- The stored name of an operator. -/
def Operator.word : Operator → String
  | equal => "equal"
  | notEqual => "not_equal"
  | greater => "greater_than"
  | less => "less_than"
  | greaterOrEqual => "greater_than_or_equal"
  | lessOrEqual => "less_than_or_equal"
  | contains => "contains"
  | notContains => "not_contains"
  | startsWith => "starts_with"
  | endsWith => "ends_with"
  | memberOf => "member_of"

def Operator.ofWord? (s : String) : Option Operator := Operator.all.find? (·.word == s)

def Operand.store : Operand → Document
  | .literal value => case "Literal" value.store
  | .var name => case "Variable" (.text name)
  | .field name f => case "Field" (ofEntries [("variable", .text name), ("field", .text f)])

def Operand.restore? : Document → Option Operand
  | .object [("Literal", value)] => (Value.restore? value).map .literal
  | .object [("Variable", .text name)] => some (.var name)
  | .object [("Field", body)] => do
    some (.field (← (← body.part? "variable").text?) (← (← body.part? "field").text?))
  | _ => none

def TemporalRelation.store : TemporalRelation → Document
  | .before least most => case "Before" (ofEntries [("min", least.store), ("max", most.store)])
  | .after least most => case "After" (ofEntries [("min", least.store), ("max", most.store)])
  | .coincides tolerance => case "Coincides" (ofEntries [("tolerance", tolerance.store)])

def TemporalRelation.restore? : Document → Option TemporalRelation
  | .object [("Before", body)] => do
    some (.before (← Span.restore? (← body.part? "min")) (← Span.restore? (← body.part? "max")))
  | .object [("After", body)] => do
    some (.after (← Span.restore? (← body.part? "min")) (← Span.restore? (← body.part? "max")))
  | .object [("Coincides", body)] => do
    some (.coincides (← Span.restore? (← body.part? "tolerance")))
  | _ => none

namespace Constraint

mutual

def store : Constraint → Document
  | compare field operator operand =>
    case "Compare" (ofEntries
      [("field", .text field), ("operator", .text operator.word), ("operand", operand.store)])
  | temporal relation name =>
    case "Temporal" (ofEntries [("operator", relation.store), ("variable", .text name)])
  | all items => case "All" (.array (storeItems items))
  | any items => case "Any" (.array (storeItems items))
  | not item => case "Not" (store item)

def storeItems : List Constraint → List Document
  | [] => []
  | x :: xs => store x :: storeItems xs

end

mutual

def restore? : Document → Option Constraint
  | .object [("Compare", body)] => do
    let field ← (← body.part? "field").text?
    let operator ← Operator.ofWord? (← (← body.part? "operator").text?)
    let operand ← Operand.restore? (← body.part? "operand")
    some (.compare field operator operand)
  | .object [("Temporal", body)] => do
    let relation ← TemporalRelation.restore? (← body.part? "operator")
    let name ← (← body.part? "variable").text?
    some (.temporal relation name)
  | .object [("All", .array items)] => (restoreItems? items).map .all
  | .object [("Any", .array items)] => (restoreItems? items).map .any
  | .object [("Not", item)] => (restore? item).map .not
  | _ => none

def restoreItems? : List Document → Option (List Constraint)
  | [] => some []
  | x :: xs => do
    let x ← restore? x
    let xs ← restoreItems? xs
    some (x :: xs)

end

end Constraint

def Window.store : Window → Document
  | .time span => case "Time" span.store
  | .length capacity => case "Length" (.integer capacity)

def Window.restore? : Document → Option Window
  | .object [("Time", span)] => (Span.restore? span).map .time
  | .object [("Length", capacity)] => capacity.natural?.map .length
  | _ => none

def Pattern.store (pattern : Pattern) : Document :=
  ofEntries
    [("fact_type", .text pattern.type),
      ("variable", optional .text pattern.factVar),
      ("constraints", .array (pattern.constraints.map Constraint.store)),
      ("bindings",
        .array (pattern.fieldVars.map fun (name, field) => .array [.text name, .text field])),
      ("window", optional Window.store pattern.window)]

def Pattern.restore? (document : Document) : Option Pattern := do
  let type ← (← document.part? "fact_type").text?
  let factVar ← optional? text? (document.part? "variable")
  let constraints ← list? Constraint.restore? (← document.part? "constraints")
  let fieldVars ← list? (fun binding => match binding with
    | .array [.text name, .text field] => some (name, field)
    | _ => none) (← document.part? "bindings")
  let window ← optional? Window.restore? (document.part? "window")
  some ⟨type, factVar, constraints, fieldVars, window⟩

/-! ## Folds -/

def Fold.store (fold : Fold) : Document := match fold.field? with
  | none => .text fold.name
  | some field => case fold.name (.text field)

def Fold.restore? : Document → Option Fold
  | .text "count" => some .count
  | .object [(name, .text field)] => (Fold.ofName? name field).filter fun fold => fold.field?.isSome
  | _ => none

/-! ## Settings -/

def Settings.store (settings : Settings) : Document :=
  ofEntries
    [(Setting.identityMode.name, .text settings.identityMode.word),
      (Setting.clock.name, .text settings.clock.word),
      (Setting.updatePolicy.name, .text settings.updatePolicy.word),
      (Setting.conflictStrategy.name, .text settings.conflictStrategy.word),
      (Setting.clockStart.name, .integer settings.clockStart)]

/-- Read settings back; a missing one keeps its standard value. -/
def Settings.restore? (document : Document) : Option Settings := do
  let word {α : Type} (setting : Setting) (ofWord? : String → Option α) (standard : α) :
      Option α := match document.part? setting.name with
    | none => some standard
    | some part => do ofWord? (← part.text?)
  let identityMode ← word .identityMode IdentityMode.ofWord? standard.identityMode
  let clock ← word .clock ClockMode.ofWord? standard.clock
  let updatePolicy ← word .updatePolicy UpdatePolicy.ofWord? standard.updatePolicy
  let conflictStrategy ← word .conflictStrategy ConflictStrategy.ofWord? standard.conflictStrategy
  let clockStart ← match document.part? Setting.clockStart.name with
    | none => some standard.clockStart
    | some (.integer n) => if Integer64.holds n then some n else none
    | some _ => none
  some ⟨identityMode, clock, updatePolicy, conflictStrategy, clockStart⟩

end RuleNet
