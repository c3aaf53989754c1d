/-
  Compilation in place.

  There is one network, and every rule and query is written into it step by step. One that breaks off
  half-way leaves behind the memories and nodes that were made for it, and what comes later shares
  them. The definitions that run go back to the network as it was before such a rule; here nothing is
  taken back.

  * `Compiling`: a part of compilation; after a defect, what was written stays.
  * `Stop.addElement`, `Draft.addElement`: one element of a branch, each check and each write in turn.
  * `Condition.outcome_write`, `Query.outcome_write`: a rule or query that is written in place comes
    to the same end, with the same network or the same defect.
-/
import RuleNet.Proofs.Network.Compile
import RuleNet.Proofs.Query.Outline

namespace RuleNet

/-- A part of compilation, which writes into the network as it goes. -/
abbrev Compiling (α : Type) := EStateM Defect Network α

namespace Compiling

/-- A check, which writes nothing. -/
def check {α : Type} (x : Except Defect α) : Compiling α := fun net => match x with
  | .ok a => .ok a net
  | .error defect => .error defect net

/-- How a part of compilation ends, but for what a defect leaves behind. -/
def outcome {α : Type} : EStateM.Result Defect Network α → Except Defect (α × Network)
  | .ok a net => .ok (a, net)
  | .error defect _ => .error defect

section
variable {α β : Type}

theorem outcome_check (x : Except Defect α) (net : Network) :
    outcome (check x net) = x.map fun a => (a, net) := by
  cases x <;> rfl

theorem outcome_modifyGet (f : Network → α × Network) (net : Network) :
    outcome ((modifyGet f : Compiling α) net) = .ok (f net) := rfl

theorem outcome_bind (x : Compiling α) (f : α → Compiling β) (net : Network) :
    outcome ((x >>= f) net) = outcome (x net) >>= fun s => outcome (f s.1 s.2) := by
  show outcome (EStateM.bind x f net) = _
  unfold EStateM.bind
  cases x net <;> rfl

end

end Compiling

open Compiling

/-! ## Rules -/

/-- How far a branch of a rule has come. -/
structure Stop where
  last : Option NodeId
  depth : Nat
  scope : Scope

/-- The feed of a pattern, after its tests have been checked. -/
def Pattern.feed (types : Types) (scope : Scope) (type : FactType) (pattern : Pattern) :
    Compiling Feed := do
  let tests ← check (scope.tests .byDepth types type pattern.constraints)
  let (constant, joined) := (pattern.constraints.zip tests).partition fun item => item.1.isConstant
  let alpha ← modifyGet fun net => net.alphaFor type.name (constant.map Prod.snd) pattern.window
  return ⟨alpha, joined.map Prod.snd, JoinIndex.choose? (joined.map Prod.snd)⟩

namespace Stop

/-- Find or make the node of a kind after the last one. -/
def node (s : Stop) (kind : NodeKind) : Compiling NodeId :=
  modifyGet fun net => net.nodeFor s.last kind

/-- Add one element of a branch; its variables are declared when its node stands. -/
def addElement (types : Types) (s : Stop) : Element → Compiling Stop
  | .pattern pattern => do
    let type ← check (checkPattern types pattern)
    let feed ← pattern.feed types s.scope type
    let n ← s.node (.join feed)
    let scope ← check (s.scope.declarePattern pattern (s.depth + 1))
    return ⟨some n, s.depth + 1, scope⟩
  | .absent pattern => do
    check (checkBindsNothing .absence pattern)
    let type ← check (checkPattern types pattern)
    let feed ← pattern.feed types s.scope type
    let n ← s.node (.absent feed)
    return ⟨some n, s.depth + 1, s.scope⟩
  | .present pattern => do
    check (checkBindsNothing .absence pattern)
    let type ← check (checkPattern types pattern)
    let feed ← pattern.feed types s.scope type
    let n ← s.node (.present feed)
    return ⟨some n, s.depth + 1, s.scope⟩
  | .every base require => do
    check (checkBindsNothing .universal base)
    let type ← check (checkPattern types base)
    let feed ← base.feed types s.scope type
    let required ← check (s.scope.tests .byDepth types type require)
    let n ← s.node (.absent { feed with tests := feed.tests ++ [.not (.all required)] })
    return ⟨some n, s.depth + 1, s.scope⟩
  | .accumulate acc => do
    check (checkBindsNothing .accumulate acc.source)
    let type ← check (checkPattern types acc.source)
    check (checkFold type acc.fold)
    let feed ← acc.source.feed types s.scope type
    let having ← match acc.having with
      | some (operator, operand) => do
        let operand ← check (s.scope.operand .byDepth types operand)
        pure (some (operator, operand))
      | none => pure none
    let n ← s.node (.accumulate feed acc.fold having)
    let scope ← check (s.scope.declare acc.result (.result (s.depth + 1)))
    return ⟨some n, s.depth + 1, scope⟩
  | .predicate p => do
    let n ← s.node (.predicate p s.scope.places)
    return ⟨some n, s.depth + 1, s.scope⟩

end Stop

/-- Add one branch of a rule. -/
def writeBranch (types : Types) (place : Nat) (branch : List Element) : Compiling Unit := do
  let s ← branch.foldlM (Stop.addElement types) ⟨none, 0, []⟩
  modify fun net => net.addTerminal place s.last s.scope

/-- Add every branch of a rule's condition. -/
def Condition.write (types : Types) (place : Nat) (condition : Condition) : Compiling Unit := do
  let branches ← check condition.normalize
  branches.forM (writeBranch types place)

/-! ## Queries -/

/-- How far a branch of a query has come. -/
structure Draft where
  depth : Nat
  scope : Scope
  steps : List PlanStep

/-- The source of a pattern: the memory is made before the tests that are left are checked. -/
def Pattern.source (types : Types) (scope : Scope) (pattern : Pattern) : Compiling Source := do
  let type ← check (checkPattern types pattern)
  let constant ←
    check (Scope.tests .byDepth types [] type (pattern.constraints.filter (·.isConstant)))
  let alpha ← modifyGet fun net => net.alphaFor type.name constant pattern.window
  let tests ←
    check (scope.tests .byName types type (pattern.constraints.filter fun c => !c.isConstant))
  let lookUp := (tests.filterMap Test.equalityPlace?).head?
  modify fun net => match lookUp with
    | some (field, _) => net.indexField alpha field
    | none => net
  return ⟨alpha, lookUp, tests⟩

namespace Draft

def step (d : Draft) (scope : Scope) (s : PlanStep) : Draft := ⟨d.depth + 1, scope, d.steps ++ [s]⟩

/-- Add one element of a branch. -/
def addElement (types : Types) (d : Draft) : Element → Compiling Draft
  | .pattern pattern => do
    let source ← pattern.source types d.scope
    let scope ← check (d.scope.declarePattern pattern (d.depth + 1))
    return d.step scope (.each source pattern.factVar pattern.fieldVars)
  | .absent pattern => do
    check (checkBindsNothing .absence pattern)
    let source ← pattern.source types d.scope
    return d.step d.scope (.absent source)
  | .present pattern => do
    check (checkBindsNothing .absence pattern)
    let source ← pattern.source types d.scope
    return d.step d.scope (.present source)
  | .every base require => do
    check (checkBindsNothing .universal base)
    let type ← check (checkPattern types base)
    let source ← base.source types d.scope
    let required ← check (d.scope.tests .byName types type require)
    return d.step d.scope (.absent { source with tests := source.tests ++ [.not (.all required)] })
  | .accumulate acc => do
    check (checkBindsNothing .accumulate acc.source)
    let type ← check (checkPattern types acc.source)
    check (checkFold type acc.fold)
    let source ← acc.source.source types d.scope
    let having ← match acc.having with
      | some (operator, operand) => do
        let operand ← check (d.scope.operand .byName types operand)
        pure (some (operator, operand))
      | none => pure none
    let scope ← check (d.scope.declare acc.result (.result (d.depth + 1)))
    return d.step scope (.accumulate source acc.fold acc.result having)
  | .predicate p => return d.step d.scope (.predicate p)

end Draft

/-- The steps of one branch of a query. -/
def writeSteps (types : Types) (parameters : List String) (branch : List Element) :
    Compiling (List PlanStep) := do
  let scope ←
    check (parameters.foldlM (fun (scope : Scope) name => scope.declare name .parameter) [])
  let d ← branch.foldlM (Draft.addElement types) ⟨0, scope, []⟩
  return d.steps

/-- Compile a query. -/
def Query.write (types : Types) (query : Query) : Compiling Plan := do
  let branches ← check query.condition.normalize
  let steps ← branches.mapM (writeSteps types query.parameters)
  return ⟨query.name, query.parameters, steps⟩

/-! ## The same ends -/

/-- A branch in the network that is being written. -/
def Stop.growth (s : Stop) (net : Network) : Growth := ⟨net, s.last, s.depth, s.scope⟩

def Growth.stop (g : Growth) : Stop × Network := (⟨g.last, g.depth, g.scope⟩, g.net)

theorem Pattern.outcome_feed (types : Types) (s : Stop) (type : FactType) (pattern : Pattern)
    (net : Network) :
    outcome (pattern.feed types s.scope type net) = (s.growth net).feed types type pattern := by
  simp only [Pattern.feed, Growth.feed, outcome_bind, outcome_check, Stop.growth]
  rcases s.scope.tests .byDepth types type pattern.constraints with d | tests <;> rfl

theorem Stop.outcome_node (s : Stop) (kind : NodeKind) (net : Network) :
    outcome (s.node kind net) = .ok (net.nodeFor s.last kind) := rfl

theorem Stop.outcome_addElement (types : Types) (s : Stop) (e : Element) (net : Network) :
    outcome (s.addElement types e net) =
      (Growth.addElement types (s.growth net) e).map Growth.stop := by
  cases e with
  | pattern p =>
    simp only [addElement, Growth.addElement, outcome_bind, outcome_check, Pattern.outcome_feed]
    rcases checkPattern types p with d | type
    · rfl
    dsimp only [Except.map, bind, Except.bind]
    rcases (s.growth net).feed types type p with d | ⟨feed, net₁⟩
    · rfl
    dsimp only [Except.bind, outcome_node, growth]
    rcases s.scope.declarePattern p (s.depth + 1) with d | scope <;> rfl
  | absent p | present p =>
    simp only [addElement, Growth.addElement, outcome_bind, outcome_check, Pattern.outcome_feed]
    rcases checkBindsNothing .absence p with d | u
    · rfl
    dsimp only [Except.map, bind, Except.bind]
    rcases checkPattern types p with d | type
    · rfl
    dsimp only [Except.bind]
    rcases (s.growth net).feed types type p with d | ⟨feed, net₁⟩ <;> rfl
  | every base require =>
    simp only [addElement, Growth.addElement, outcome_bind, outcome_check, Pattern.outcome_feed]
    rcases checkBindsNothing .universal base with d | u
    · rfl
    dsimp only [Except.map, bind, Except.bind]
    rcases checkPattern types base with d | type
    · rfl
    dsimp only [Except.bind]
    rcases (s.growth net).feed types type base with d | ⟨feed, net₁⟩
    · rfl
    dsimp only [Except.bind, growth]
    rcases s.scope.tests .byDepth types type require with d | required <;> rfl
  | accumulate acc =>
    simp only [addElement, Growth.addElement, outcome_bind, outcome_check, Pattern.outcome_feed]
    rcases checkBindsNothing .accumulate acc.source with d | u
    · rfl
    dsimp only [Except.map, bind, Except.bind]
    rcases checkPattern types acc.source with d | type
    · rfl
    dsimp only [Except.bind]
    rcases checkFold type acc.fold with d | u
    · rfl
    dsimp only [Except.bind]
    rcases (s.growth net).feed types type acc.source with d | ⟨feed, net₁⟩
    · rfl
    dsimp only [Except.bind, growth]
    rcases acc.having with - | ⟨operator, operand⟩
    · dsimp only
      rcases s.scope.declare acc.result (.result (s.depth + 1)) with d | scope <;> rfl
    · dsimp only
      rcases s.scope.operand .byDepth types operand with d | operand
      · rfl
      dsimp only
      rcases s.scope.declare acc.result (.result (s.depth + 1)) with d | scope <;> rfl
  | predicate p => rfl

theorem Stop.outcome_foldlM (types : Types) (branch : List Element) (s : Stop) (net : Network) :
    outcome (branch.foldlM (addElement types) s net) =
      (branch.foldlM (Growth.addElement types) (s.growth net)).map Growth.stop := by
  induction branch generalizing s net with
  | nil => rfl
  | cons e rest ih =>
    simp only [List.foldlM_cons, outcome_bind, outcome_addElement]
    cases Growth.addElement types (s.growth net) e with
    | error d => rfl
    | ok g => exact ih g.stop.1 g.stop.2

theorem outcome_writeBranch (types : Types) (place : Nat) (branch : List Element) (net : Network) :
    outcome (writeBranch types place branch net) =
      (net.addBranch types place branch).map fun net => ((), net) := by
  rw [writeBranch, Network.addBranch, outcome_bind, Stop.outcome_foldlM]
  show _ = (branch.foldlM (Growth.addElement types) (Stop.growth ⟨none, 0, []⟩ net) >>= _).map _
  cases branch.foldlM (Growth.addElement types) (Stop.growth ⟨none, 0, []⟩ net) <;> rfl

theorem outcome_writeBranches (types : Types) (place : Nat) (branches : Branches) (net : Network) :
    outcome (branches.forM (writeBranch types place) net) =
      (branches.foldlM (fun (net : Network) branch => net.addBranch types place branch) net).map
        fun net => ((), net) := by
  induction branches generalizing net with
  | nil => rfl
  | cons branch rest ih =>
    rw [List.foldlM_cons]
    show outcome ((writeBranch types place branch >>= fun _ =>
      rest.forM (writeBranch types place)) net) = _
    rw [outcome_bind, outcome_writeBranch]
    cases net.addBranch types place branch with
    | error d => rfl
    | ok net => exact ih net

/-- A rule that is written in place comes to the same end. -/
theorem Condition.outcome_write (types : Types) (place : Nat) (condition : Condition)
    (net : Network) : outcome (condition.write types place net) =
      (net.addRule types place condition).map fun net => ((), net) := by
  rw [Condition.write, outcome_bind, outcome_check, Network.addRule]
  cases condition.normalize with
  | error d => rfl
  | ok branches => exact outcome_writeBranches types place branches net

def Draft.drafting (d : Draft) (net : Network) : Drafting := ⟨net, d.depth, d.scope, d.steps⟩

def Drafting.draft (d : Drafting) : Draft × Network := (⟨d.depth, d.scope, d.steps⟩, d.net)

theorem Pattern.outcome_source (types : Types) (d : Draft) (pattern : Pattern) (net : Network) :
    outcome (pattern.source types d.scope net) =
      ((d.drafting net).source types pattern).map fun s => s.2 := by
  simp only [Pattern.source, Drafting.source, outcome_bind, outcome_check, Draft.drafting]
  rcases checkPattern types pattern with e | type
  · rfl
  dsimp only [Except.map, bind, Except.bind]
  rcases Scope.tests .byDepth types [] type (pattern.constraints.filter (·.isConstant)) with
    e | constant
  · rfl
  dsimp only [Except.bind, outcome_modifyGet]
  rcases d.scope.tests .byName types type (pattern.constraints.filter fun c => !c.isConstant) with
    e | tests
  · rfl
  · rfl

theorem Drafting.checkPattern_of_source (d : Drafting) (types : Types) (pattern : Pattern)
    {type : FactType} {found : Source × Network} (h : d.source types pattern = .ok (type, found)) :
    checkPattern types pattern = .ok type := by
  obtain ⟨type', htype, h⟩ := ok_of_bind h
  obtain ⟨constant, -, h⟩ := ok_of_bind h
  obtain ⟨tests, -, h⟩ := ok_of_bind h
  cases h
  exact htype

theorem Draft.outcome_addElement (types : Types) (d : Draft) (e : Element) (net : Network) :
    outcome (d.addElement types e net) =
      (Drafting.addElement types (d.drafting net) e).map Drafting.draft := by
  cases e with
  | pattern p =>
    simp only [addElement, Drafting.addElement, outcome_bind, outcome_check, Pattern.outcome_source]
    rcases (d.drafting net).source types p with e | ⟨type, source, net₁⟩
    · rfl
    dsimp only [Except.map, bind, Except.bind, drafting]
    rcases d.scope.declarePattern p (d.depth + 1) with e | scope <;> rfl
  | absent p | present p =>
    simp only [addElement, Drafting.addElement, outcome_bind, outcome_check, Pattern.outcome_source]
    rcases checkBindsNothing .absence p with e | u
    · rfl
    dsimp only [Except.map, bind, Except.bind]
    rcases (d.drafting net).source types p with e | ⟨type, source, net₁⟩ <;> rfl
  | every base require =>
    simp only [addElement, Drafting.addElement, outcome_bind, outcome_check, Pattern.outcome_source]
    rcases checkBindsNothing .universal base with e | u
    · rfl
    dsimp only [Except.map, bind, Except.bind]
    -- The pattern is checked twice, with one answer.
    cases htype : checkPattern types base with
    | error e =>
      have hs : (d.drafting net).source types base = .error e := by
        rw [Drafting.source, htype]
        rfl
      rw [hs]
    | ok type =>
      dsimp only [Except.bind]
      rcases hs : (d.drafting net).source types base with e | ⟨type', source, net₁⟩
      · rfl
      obtain rfl : type = type' := Except.ok.inj
        (htype.symm.trans ((d.drafting net).checkPattern_of_source types base hs))
      dsimp only [Except.bind, drafting]
      rcases d.scope.tests .byName types type require with e | required <;> rfl
  | accumulate acc =>
    simp only [addElement, Drafting.addElement, outcome_bind, outcome_check, Pattern.outcome_source]
    rcases checkBindsNothing .accumulate acc.source with e | u
    · rfl
    dsimp only [Except.map, bind, Except.bind]
    rcases checkPattern types acc.source with e | type
    · rfl
    dsimp only [Except.bind]
    rcases checkFold type acc.fold with e | u
    · rfl
    dsimp only [Except.bind]
    rcases (d.drafting net).source types acc.source with e | ⟨type, source, net₁⟩
    · rfl
    dsimp only [Except.bind, drafting]
    rcases acc.having with - | ⟨operator, operand⟩
    · dsimp only
      rcases d.scope.declare acc.result (.result (d.depth + 1)) with e | scope <;> rfl
    · dsimp only
      rcases d.scope.operand .byName types operand with e | operand
      · rfl
      dsimp only
      rcases d.scope.declare acc.result (.result (d.depth + 1)) with e | scope <;> rfl
  | predicate p => rfl

theorem Draft.outcome_foldlM (types : Types) (branch : List Element) (d : Draft) (net : Network) :
    outcome (branch.foldlM (addElement types) d net) =
      (branch.foldlM (Drafting.addElement types) (d.drafting net)).map Drafting.draft := by
  induction branch generalizing d net with
  | nil => rfl
  | cons e rest ih =>
    simp only [List.foldlM_cons, outcome_bind, outcome_addElement]
    cases Drafting.addElement types (d.drafting net) e with
    | error defect => rfl
    | ok d => exact ih d.draft.1 d.draft.2

theorem outcome_writeSteps (types : Types) (parameters : List String) (branch : List Element)
    (net : Network) : outcome (writeSteps types parameters branch net) =
      Plan.compileBranch types parameters net branch := by
  rw [writeSteps, Plan.compileBranch, outcome_bind, outcome_check]
  cases parameters.foldlM (fun (scope : Scope) name => scope.declare name .parameter) [] with
  | error defect => rfl
  | ok scope =>
    show outcome ((branch.foldlM (Draft.addElement types) ⟨0, scope, []⟩ >>= _) net) = _
    rw [outcome_bind, Draft.outcome_foldlM]
    show _ = branch.foldlM (Drafting.addElement types) (Draft.drafting ⟨0, scope, []⟩ net) >>= _
    cases branch.foldlM (Drafting.addElement types) (Draft.drafting ⟨0, scope, []⟩ net) <;> rfl

theorem outcome_writeAllSteps (types : Types) (parameters : List String) (branches : Branches)
    (net : Network) : outcome (branches.mapM (writeSteps types parameters) net) =
      Plan.compileBranches types parameters net branches := by
  induction branches generalizing net with
  | nil => rfl
  | cons branch rest ih =>
    rw [List.mapM_cons, outcome_bind, outcome_writeSteps, Plan.compileBranches]
    cases Plan.compileBranch types parameters net branch with
    | error defect => rfl
    | ok found =>
      show outcome ((rest.mapM (writeSteps types parameters) >>= _) found.2) = _
      rw [outcome_bind, ih]
      show _ = Plan.compileBranches types parameters found.2 rest >>= _
      cases Plan.compileBranches types parameters found.2 rest <;> rfl

/-- A query that is written in place comes to the same end. -/
theorem Query.outcome_write (types : Types) (query : Query) (net : Network) :
    outcome (query.write types net) = Plan.compile types net query := by
  rw [Query.write, outcome_bind, outcome_check, Plan.compile]
  cases query.condition.normalize with
  | error defect => rfl
  | ok branches =>
    show outcome ((branches.mapM (writeSteps types query.parameters) >>= _) net) = _
    rw [outcome_bind, outcome_writeAllSteps]
    show _ = Plan.compileBranches types query.parameters net branches >>= _
    cases Plan.compileBranches types query.parameters net branches <;> rfl

end RuleNet
