/-
  The network: alpha memories, beta nodes and terminals, as compiled from rules.

  A fact enters every alpha memory whose constant tests it passes. Each beta node extends the
  matches of its parent, most by facts of one alpha memory; a match that arrives at the end of a
  branch arrives at its terminal. Everything here is the same for all sessions.

  * `Network.candidates`: the alpha memories that a fact is tried on.
  * `Network.below`: the nodes fed by a node. They come later in the network, so following them
    ends.
-/
import RuleNet.Data.Keyed
import RuleNet.Network.Test
import RuleNet.Rule.Condition

namespace RuleNet

abbrev AlphaId := Nat
abbrev NodeId := Nat
abbrev TerminalId := Nat

/-! ## Definitions -/

/-- A field and the key that its value must have. -/
structure Dispatch where
  field : String
  key : Value
  deriving DecidableEq

/-- An alpha memory: facts of one type that pass constant tests, within a window. -/
structure AlphaNode where
  type : String
  tests : List (Test Place)
  window : Option Window
  /-- A fact without this key is not tried. -/
  dispatch : Option Dispatch
  /-- The fields by which members can be looked up. -/
  indexedFields : List String
  /-- The nodes it feeds, the deepest first. -/
  successors : List NodeId

/-- Whether a fact is tried on the memory at all. -/
def AlphaNode.admits (alpha : AlphaNode) (fact : Fact) : Bool :=
  alpha.type == fact.type && match alpha.dispatch with
    | some dispatch => dispatch.key == (fact.value dispatch.field).indexKey
    | none => true

/-- A look-up of the members whose field has the key of a place. -/
structure JoinIndex where
  field : String
  place : Place
  deriving DecidableEq

/-- How a node finds facts for a match. -/
structure Feed where
  alpha : AlphaId
  tests : List (Test Place)
  index : Option JoinIndex
  deriving DecidableEq

/-- What a node does with the matches of its parent. -/
inductive NodeKind where
  /-- Extends a match by each fact of the feed. -/
  | join (feed : Feed)
  /-- Passes a match while the feed has no fact for it. -/
  | absent (feed : Feed)
  /-- Passes a match while the feed has a fact for it. -/
  | present (feed : Feed)
  /-- Extends a match by the folded value of the feed's facts. -/
  | accumulate (feed : Feed) (fold : Fold) (having : Option (Operator × TestOperand Place))
  /-- Passes a match for which the predicate holds. -/
  | predicate (p : Predicate) (scope : List (String × Place))

namespace NodeKind

def feed? : NodeKind → Option Feed
  | join feed => some feed
  | absent feed => some feed
  | present feed => some feed
  | accumulate feed _ _ => some feed
  | predicate _ _ => none

def alpha? (kind : NodeKind) : Option AlphaId := kind.feed?.map Feed.alpha

def index? (kind : NodeKind) : Option JoinIndex := kind.feed?.bind Feed.index

def tests (kind : NodeKind) : List (Test Place) := (kind.feed?.map Feed.tests).getD []

def isJoin : NodeKind → Bool
  | join _ => true
  | _ => false

/-- Whether two nodes under one parent do the same, so that one can stand for both. -/
def same : NodeKind → NodeKind → Bool
  | join f, join g => decide (f = g)
  | absent f, absent g => decide (f = g)
  | present f, present g => decide (f = g)
  | accumulate f a h, accumulate g b i => decide (f = g ∧ a = b ∧ h = i)
  | predicate p s, predicate q t => p.same q && decide (s = t)
  | _, _ => false

end NodeKind

/-- A beta node. -/
structure BetaNode where
  /-- The node whose matches it extends; a node without one starts from the empty match. -/
  parent : Option NodeId
  /-- The number of steps that its matches have taken. -/
  depth : Nat
  kind : NodeKind
  children : List NodeId
  terminals : List TerminalId

/-- The end of one branch of a rule. -/
structure Terminal where
  /-- The rule, by its place among the rules. -/
  rule : Nat
  /-- The last node of the branch; an empty branch has none. -/
  node : Option NodeId
  /-- The variables of the branch. -/
  scope : List (String × Place)

/-- How much a network consists of. -/
structure NetworkCounts where
  alphaMemories : Nat
  betaNodes : Nat
  terminals : Nat
  /-- How often a node was asked for that was there already. -/
  sharedNodes : Nat
  deriving DecidableEq, Inhabited

structure Network where
  alphas : Array AlphaNode
  nodes : Array BetaNode
  terminals : Array Terminal
  /-- The nodes without a parent. -/
  rootChildren : List NodeId
  /-- The terminals of empty branches. -/
  rootTerminals : List TerminalId
  sharedNodes : Nat

namespace Network

def empty : Network := ⟨#[], #[], #[], [], [], 0⟩

def counts (net : Network) : NetworkCounts :=
  ⟨net.alphas.size, net.nodes.size, net.terminals.size, net.sharedNodes⟩

/-! ## Walking -/

def alpha? (net : Network) (a : AlphaId) : Option AlphaNode := net.alphas[a]?

def node? (net : Network) (n : NodeId) : Option BetaNode := net.nodes[n]?

def terminal? (net : Network) (t : TerminalId) : Option Terminal := net.terminals[t]?

def kind? (net : Network) (n : NodeId) : Option NodeKind := (net.node? n).map BetaNode.kind

def depthOf (net : Network) (n : NodeId) : Nat := ((net.node? n).map BetaNode.depth).getD 0

def terminalsOf (net : Network) (n : NodeId) : List TerminalId :=
  ((net.node? n).map BetaNode.terminals).getD []

def successorsOf (net : Network) (a : AlphaId) : List NodeId :=
  ((net.alpha? a).map AlphaNode.successors).getD []

def childrenOf (net : Network) (n : NodeId) : List NodeId :=
  ((net.node? n).map BetaNode.children).getD []

/-- A node that comes after `n`. -/
abbrev Later (net : Network) (n : NodeId) := { c : NodeId // n < c ∧ c < net.nodes.size }

/-- The children of a node, which all come after it. -/
def below (net : Network) (n : NodeId) : List (net.Later n) :=
  (net.childrenOf n).filterMap fun c =>
    if h : n < c ∧ c < net.nodes.size then some ⟨c, h⟩ else none

/-- Whether a fact reaches node `m` no later than node `n`: the deepest first, and of one depth the
    earliest. -/
def reachedBy (net : Network) (m n : NodeId) : Bool :=
  dictionary (-(net.depthOf m : Int), m) (-(net.depthOf n : Int), n) != .gt

/-- Put a node into its place among nodes in the order in which a fact reaches them. -/
def rankNode (net : Network) (n : NodeId) : List NodeId → List NodeId
  | [] => [n]
  | m :: rest => if net.reachedBy n m then n :: m :: rest else m :: rankNode net n rest

/-- Nodes in the order in which a fact reaches them. A fact that feeds two steps of one branch is
    then paired with itself once. -/
def deepestFirst (net : Network) (nodes : List NodeId) : List NodeId := nodes.foldr net.rankNode []

/-- The alpha memories that a fact is tried on, in order. -/
def candidates (net : Network) (fact : Fact) : List AlphaId :=
  (List.range net.alphas.size).filter fun a => (net.alpha? a).any (·.admits fact)

end Network

end RuleNet
