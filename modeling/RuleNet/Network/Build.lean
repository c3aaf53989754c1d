/-
  Building the network: rules are added one after the other, and share what they have in common.

  * Two patterns share an alpha memory if they are of one type and window with the same constant
    constraints, in any order; two steps share a node if they do the same after the same node.
  * `Network.addRule` adds every branch of a rule, or reports the first defect of its condition.
  * `Network.finish` orders what each alpha memory feeds.
-/
import RuleNet.Network.Branch
import RuleNet.Network.Graph
import RuleNet.Network.Scope
import RuleNet.Rule.Definition
import RuleNet.Value.Literal
import RuleNet.Value.Order

namespace RuleNet

/-! ## Alpha memories -/

/-- The written form of a test `field == literal`, from the field on. -/
def Dispatch.form (test : String × Value) : String := quoted test.1 ++ test.2.literal

/-- The order in which tests are preferred for dispatch: by their forms, and if these are the same,
    by their fields and values. -/
def Dispatch.rank (a b : String × Value) : Ordering :=
  ((compare (form a) (form b)).then (compare a.1 b.1)).then (a.2.totalCompare b.2)

def Dispatch.precedes (a b : String × Value) : Bool := rank a b != .gt

/-- The literal by which facts are dispatched to a memory with the given tests. -/
def Dispatch.choose? (tests : List (Test Place)) : Option Dispatch :=
  ((tests.filterMap Test.equalityLiteral?).mergeSort Dispatch.precedes).head?.map
    fun literal => ⟨literal.1, literal.2.indexKey⟩

namespace Network

/-- The alpha memory of a type, tests and window, made if there is none. -/
def alphaFor (net : Network) (type : String) (tests : List (Test Place)) (window : Option Window) :
    AlphaId × Network :=
  match net.alphas.findIdx? fun alpha =>
      alpha.type == type && decide (alpha.window = window) && alpha.tests.isPerm tests with
  | some a => (a, net)
  | none =>
    (net.alphas.size,
      { net with alphas := net.alphas.push ⟨type, tests, window, Dispatch.choose? tests, [], []⟩ })

/-- Make the members of a memory findable by a field. -/
def indexField (net : Network) (a : AlphaId) (field : String) : Network :=
  { net with alphas := net.alphas.modify a fun alpha =>
      if alpha.indexedFields.contains field then alpha
      else { alpha with indexedFields := alpha.indexedFields ++ [field] } }

/-! ## Nodes -/

/-- The children of a node, or the nodes without a parent. -/
def childrenUnder (net : Network) : Option NodeId → List NodeId
  | some parent => net.childrenOf parent
  | none => net.rootChildren

/-- Let a memory feed a node, findable by the field that the node looks up. -/
def connect (net : Network) (feed : Feed) (n : NodeId) : Network :=
  let net := { net with alphas := net.alphas.modify feed.alpha fun alpha =>
    { alpha with successors := alpha.successors ++ [n] } }
  match feed.index with
  | some index => net.indexField feed.alpha index.field
  | none => net

/-- Put a new node under its parent. -/
def attach (net : Network) (parent : Option NodeId) (n : NodeId) : Network := match parent with
  | some p => { net with nodes := net.nodes.modify p fun node =>
      { node with children := node.children ++ [n] } }
  | none => { net with rootChildren := net.rootChildren ++ [n] }

/-- The node of a kind under a parent, made if there is none. -/
def nodeFor (net : Network) (parent : Option NodeId) (kind : NodeKind) : NodeId × Network :=
  match (net.childrenUnder parent).find? fun n => (net.kind? n).any (NodeKind.same kind) with
  | some n => (n, { net with sharedNodes := net.sharedNodes + 1 })
  | none =>
    let n := net.nodes.size
    let depth := match parent with
      | some p => net.depthOf p + 1
      | none => 1
    let net := match kind.feed? with
      | some feed => net.connect feed n
      | none => net
    let net := net.attach parent n
    (n, { net with nodes := net.nodes.push ⟨parent, depth, kind, [], []⟩ })

/-- End a branch of a rule after a node. -/
def addTerminal (net : Network) (rule : Nat) (node : Option NodeId) (scope : Scope) : Network :=
  let t := net.terminals.size
  let net := { net with terminals := net.terminals.push ⟨rule, node, scope.places⟩ }
  match node with
  | some n => { net with nodes := net.nodes.modify n fun node =>
      { node with terminals := node.terminals ++ [t] } }
  | none => { net with rootTerminals := net.rootTerminals ++ [t] }

end Network

/-! ## Branches -/

/-- The look-up that the first test `field == place` allows. -/
def JoinIndex.choose? (tests : List (Test Place)) : Option JoinIndex :=
  (tests.filterMap Test.equalityPlace?).head?.map fun test => ⟨test.1, test.2⟩

/-- A branch on its way into the network. -/
structure Growth where
  net : Network
  last : Option NodeId
  depth : Nat
  scope : Scope

namespace Growth

/-- The feed of a pattern: its constant constraints go into the alpha memory. -/
def feed (g : Growth) (types : Types) (type : FactType) (pattern : Pattern) :
    Except Defect (Feed × Network) := do
  let tests ← g.scope.tests .byDepth types type pattern.constraints
  let (constant, joined) := (pattern.constraints.zip tests).partition fun item => item.1.isConstant
  let (alpha, net) := g.net.alphaFor type.name (constant.map Prod.snd) pattern.window
  let joined := joined.map Prod.snd
  .ok (⟨alpha, joined, JoinIndex.choose? joined⟩, net)

/-- Go one step on, to the node of a kind. -/
def step (g : Growth) (net : Network) (kind : NodeKind) (scope : Scope) : Growth :=
  let (n, net) := net.nodeFor g.last kind
  ⟨net, some n, g.depth + 1, scope⟩

/-- Add one element of a branch. -/
def addElement (types : Types) (g : Growth) : Element → Except Defect Growth
  | .pattern pattern => do
    let type ← checkPattern types pattern
    let (feed, net) ← g.feed types type pattern
    let scope ← g.scope.declarePattern pattern (g.depth + 1)
    .ok (g.step net (.join feed) scope)
  | .absent pattern => do
    checkBindsNothing .absence pattern
    let type ← checkPattern types pattern
    let (feed, net) ← g.feed types type pattern
    .ok (g.step net (.absent feed) g.scope)
  | .present pattern => do
    checkBindsNothing .absence pattern
    let type ← checkPattern types pattern
    let (feed, net) ← g.feed types type pattern
    .ok (g.step net (.present feed) g.scope)
  | .every base require => do
    checkBindsNothing .universal base
    let type ← checkPattern types base
    let (feed, net) ← g.feed types type base
    let required ← g.scope.tests .byDepth types type require
    .ok (g.step net (.absent { feed with tests := feed.tests ++ [.not (.all required)] }) g.scope)
  | .accumulate acc => do
    checkBindsNothing .accumulate acc.source
    let type ← checkPattern types acc.source
    checkFold type acc.fold
    let (feed, net) ← g.feed types type acc.source
    let having ← match acc.having with
      | some (operator, operand) => do
        let operand ← g.scope.operand .byDepth types operand
        .ok (some (operator, operand))
      | none => .ok none
    let scope ← g.scope.declare acc.result (.result (g.depth + 1))
    .ok (g.step net (.accumulate feed acc.fold having) scope)
  | .predicate p => .ok (g.step g.net (.predicate p g.scope.places) g.scope)

end Growth

namespace Network

/-- Add one branch of a rule. -/
def addBranch (net : Network) (types : Types) (rule : Nat) (branch : List Element) :
    Except Defect Network := do
  let g ← branch.foldlM (Growth.addElement types) ⟨net, none, 0, []⟩
  .ok (g.net.addTerminal rule g.last g.scope)

/-- Add every branch of a rule's condition. -/
def addRule (net : Network) (types : Types) (rule : Nat) (condition : Condition) :
    Except Defect Network := do
  let branches ← condition.normalize
  branches.foldlM (fun net branch => net.addBranch types rule branch) net

/-- The finished network: every memory feeds its nodes deepest first. -/
def finish (net : Network) : Network :=
  { net with alphas := net.alphas.map fun alpha =>
      { alpha with successors := net.deepestFirst alpha.successors } }

end Network

end RuleNet
