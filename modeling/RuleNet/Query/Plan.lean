/-
  Query plans: queries compiled against the network's alpha memories.

  * `Reference`: how a plan names variables; rows are built variable by variable, so by name.
  * `Plan.compile`: the steps of every branch, or the first defect of the condition. The memories a
    plan reads are added to the network.
-/
import RuleNet.Network.Build

namespace RuleNet

/-- A variable of a row, as a test reads it. -/
inductive Reference where
  | value (name : String)
  | field (name : String) (field : String)
  | fact (name : String)
  deriving DecidableEq

/-- References by the names of the variables. -/
def Addressing.byName : Addressing Reference where
  value name declared := match declared with
    | .field _ _ | .result _ | .parameter => some (.value name)
    | .fact _ _ => none
  field name _ field := .field name field
  fact name _ := .fact name

/-- Where a step finds facts: the members of a memory, looked up by a field if the step compares
    it. -/
structure Source where
  alpha : AlphaId
  lookUp : Option (String × Reference)
  tests : List (Test Reference)

/-- One step of a query. -/
inductive PlanStep where
  | each (source : Source) (factVar : Option String) (fieldVars : List (String × String))
  | absent (source : Source)
  | present (source : Source)
  | accumulate (source : Source) (fold : Fold) (result : String)
      (having : Option (Operator × TestOperand Reference))
  | predicate (p : Predicate)

/-- A compiled query. -/
structure Plan where
  name : String
  parameters : List String
  branches : List (List PlanStep)

/-! ## Compiling -/

/-- A branch of a query on its way into a plan. -/
structure Drafting where
  net : Network
  depth : Nat
  scope : Scope
  steps : List PlanStep

namespace Drafting

/-- The source of a pattern: the constant constraints are resolved first. -/
def source (d : Drafting) (types : Types) (pattern : Pattern) :
    Except Defect (FactType × Source × Network) := do
  let type ← checkPattern types pattern
  let constant ← Scope.tests .byDepth types [] type (pattern.constraints.filter (·.isConstant))
  let (alpha, net) := d.net.alphaFor type.name constant pattern.window
  let tests ← d.scope.tests .byName types type (pattern.constraints.filter fun c => !c.isConstant)
  let lookUp := (tests.filterMap Test.equalityPlace?).head?
  let net := match lookUp with
    | some (field, _) => net.indexField alpha field
    | none => net
  .ok (type, ⟨alpha, lookUp, tests⟩, net)

/-- Go one step on. -/
def step (d : Drafting) (net : Network) (scope : Scope) (s : PlanStep) : Drafting :=
  ⟨net, d.depth + 1, scope, d.steps ++ [s]⟩

/-- Add one element of a branch. -/
def addElement (types : Types) (d : Drafting) : Element → Except Defect Drafting
  | .pattern pattern => do
    let (_, source, net) ← d.source types pattern
    let scope ← d.scope.declarePattern pattern (d.depth + 1)
    .ok (d.step net scope (.each source pattern.factVar pattern.fieldVars))
  | .absent pattern => do
    checkBindsNothing .absence pattern
    let (_, source, net) ← d.source types pattern
    .ok (d.step net d.scope (.absent source))
  | .present pattern => do
    checkBindsNothing .absence pattern
    let (_, source, net) ← d.source types pattern
    .ok (d.step net d.scope (.present source))
  | .every base require => do
    checkBindsNothing .universal base
    let (type, source, net) ← d.source types base
    let required ← d.scope.tests .byName types type require
    let violating := { source with tests := source.tests ++ [.not (.all required)] }
    .ok (d.step net d.scope (.absent violating))
  | .accumulate acc => do
    checkBindsNothing .accumulate acc.source
    let type ← checkPattern types acc.source
    checkFold type acc.fold
    let (_, source, net) ← d.source types acc.source
    let having ← match acc.having with
      | some (operator, operand) => do
        let operand ← d.scope.operand .byName types operand
        .ok (some (operator, operand))
      | none => .ok none
    let scope ← d.scope.declare acc.result (.result (d.depth + 1))
    .ok (d.step net scope (.accumulate source acc.fold acc.result having))
  | .predicate p => .ok (d.step d.net d.scope (.predicate p))

end Drafting

namespace Plan

/-- The steps of one branch of a query with the given parameters. -/
def compileBranch (types : Types) (parameters : List String) (net : Network)
    (branch : List Element) : Except Defect (List PlanStep × Network) := do
  let scope ← parameters.foldlM (fun (scope : Scope) name => scope.declare name .parameter) []
  let d ← branch.foldlM (Drafting.addElement types) ⟨net, 0, scope, []⟩
  .ok (d.steps, d.net)

/-- Compile the branches of a query one after the other. -/
def compileBranches (types : Types) (parameters : List String) (net : Network) :
    Branches → Except Defect (List (List PlanStep) × Network)
  | [] => .ok ([], net)
  | branch :: rest => do
    let (steps, net) ← compileBranch types parameters net branch
    let (others, net) ← compileBranches types parameters net rest
    .ok (steps :: others, net)

/-- Compile a query. -/
def compile (types : Types) (net : Network) (query : Query) : Except Defect (Plan × Network) := do
  let branches ← query.condition.normalize
  let (steps, net) ← compileBranches types query.parameters net branches
  .ok (⟨query.name, query.parameters, steps⟩, net)

end Plan

end RuleNet
