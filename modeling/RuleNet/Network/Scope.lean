/-
  Scopes: the variables that a branch has bound so far, and the checks that depend on them.

  * `Scope.declare`, `Scope.lookUp`: a name is bound once, and before it is used.
  * `Addressing`: how tests name places, by depth in rules and by variable in queries.
  * `Scope.test`: a constraint resolved against a scope, or the first defect in it.
  * `checkPattern`, `checkFold`: what must hold of a pattern and of a fold by themselves.
-/
import RuleNet.Fact.Schema
import RuleNet.Network.Test
import RuleNet.Rule.Defect

namespace RuleNet

/-! ## Variables -/

/-- What a variable is bound to. -/
inductive Declared where
  | fact (depth : Nat) (type : String)
  | field (depth : Nat) (field : String)
  | result (depth : Nat)
  | parameter
  deriving DecidableEq

/-- The variables bound so far. -/
abbrev Scope := Entries Declared

/-- The declared fact types by name. -/
abbrev Types := Entries FactType

namespace Scope

/-- Bind a new variable. -/
def declare (scope : Scope) (name : String) (declared : Declared) : Except Defect Scope :=
  if Entries.contains name scope then .error (.rebound name)
  else .ok (Entries.insert name declared scope)

/-- What a variable is bound to. -/
def lookUp (scope : Scope) (name : String) : Except Defect Declared :=
  match Entries.find? name scope with
  | some declared => .ok declared
  | none => .error (.unbound name)

/-- Where a declared variable lives; parameters live in no chain. -/
def placeOf? : Declared → Option Place
  | .fact depth _ => some (.fact depth)
  | .field depth field => some (.field depth field)
  | .result depth => some (.result depth)
  | .parameter => none

/-- Where the variables live. -/
def places (scope : Scope) : List (String × Place) :=
  scope.filterMap fun (name, declared) => (placeOf? declared).map (name, ·)

/-- Bind what a pattern at a depth binds: the fact first, then its fields. -/
def declarePattern (scope : Scope) (pattern : Pattern) (depth : Nat) : Except Defect Scope := do
  let scope ← match pattern.factVar with
    | some name => scope.declare name (.fact depth pattern.type)
    | none => .ok scope
  pattern.fieldVars.foldlM (fun (scope : Scope) (var : String × String) =>
    scope.declare var.1 (.field depth var.2)) scope

end Scope

/-! ## Resolving -/

/-- How resolved tests name the places of variables. -/
structure Addressing (ρ : Type) where
  value : String → Declared → Option ρ
  field : String → Nat → String → ρ
  fact : String → Nat → ρ

/-- Places by depth. -/
def Addressing.byDepth : Addressing Place where
  value _ declared := match declared with
    | .field depth field => some (.field depth field)
    | .result depth => some (.result depth)
    | .fact _ _ | .parameter => none
  field _ depth field := .field depth field
  fact _ depth := .fact depth

namespace Scope

variable {ρ : Type}

/-- Resolve an operand. -/
def operand (address : Addressing ρ) (types : Types) (scope : Scope) :
    Operand → Except Defect (TestOperand ρ)
  | .literal value => .ok (.literal value)
  | .var name => do match ← scope.lookUp name with
    | .fact _ _ => .error (.comparesFact name)
    | declared => match address.value name declared with
      | some place => .ok (.place place)
      | none => .error (.unusable name)
  | .field name field => do match ← scope.lookUp name with
    | .fact depth type => match types.find? type with
      | none => .error (.unknownType type)
      | some declared =>
        if declared.hasField field then .ok (.place (address.field name depth field))
        else .error (.unknownField type field)
    | _ => .error (.notAFact name)

mutual

/-- Resolve a constraint on facts of a type. -/
def test (address : Addressing ρ) (types : Types) (scope : Scope) (type : FactType) :
    Constraint → Except Defect (Test ρ)
  | .compare field operator operand =>
    if type.hasField field then do
      let operand ← scope.operand address types operand
      .ok (.compare field operator operand)
    else .error (.unknownField type.name field)
  | .temporal relation name =>
    if type.isEvent then do match ← scope.lookUp name with
      | .fact depth target =>
        if (types.find? target).any FactType.isEvent then
          .ok (.temporal relation (address.fact name depth))
        else .error (.notAnEvent name)
      | _ => .error (.notAFact name)
    else .error (.temporalOnState type.name)
  | .all items => do .ok (.all (← tests address types scope type items))
  | .any items => do .ok (.any (← tests address types scope type items))
  | .not item => do .ok (.not (← test address types scope type item))

/-- Resolve constraints in order. -/
def tests (address : Addressing ρ) (types : Types) (scope : Scope) (type : FactType) :
    List Constraint → Except Defect (List (Test ρ))
  | [] => .ok []
  | item :: rest => do
    let item ← test address types scope type item
    let rest ← tests address types scope type rest
    .ok (item :: rest)

end

end Scope

/-! ## Checks -/

/-- The declaration of a pattern's type, if the pattern fits it. -/
def checkPattern (types : Types) (pattern : Pattern) : Except Defect FactType := do
  let some type := types.find? pattern.type | .error (.unknownType pattern.type)
  if let some (name, field) := pattern.fieldVars.find? fun var => !type.hasField var.2 then
    .error (.unknownBoundField name type.name field)
  match pattern.window with
  | some window =>
    if type.isEvent then
      if window = .length 0 then .error .emptyWindow else .ok type
    else .error (.windowOnState type.name)
  | none => .ok type

/-- Patterns inside other conditions bind nothing. -/
def checkBindsNothing (enclosure : Enclosure) (pattern : Pattern) : Except Defect Unit :=
  if pattern.bindsNothing then .ok () else .error (.bindsInside enclosure pattern.type)

/-- A fold needs a declared field, and sums and averages a numeric one. -/
def checkFold (type : FactType) (fold : Fold) : Except Defect Unit := match fold.field? with
  | none => .ok ()
  | some field => match type.fields.find? field with
    | none => .error (.unknownField type.name field)
    | some declared =>
      if fold.needsNumbers && !declared.isNumeric then
        .error (.notNumeric fold.name field declared)
      else .ok ()

end RuleNet
