/-
  The memory of a matching: all partial matches of one session.

  A match is a chain of tokens, one for each step of a branch, below the root token. Every node
  keeps the tokens of its parent, which are its left tokens, and what it found out about each.

  * `Matching.chain`, `Matching.view`: the tokens above a token, and what places hold there.
  * `Matching.binding`: the variables of a match.
  * `Matching.subtree`: a token and all tokens below it, the lowest first.
-/
import RuleNet.Accumulator
import RuleNet.Fact.Binding
import RuleNet.Network.Graph
import RuleNet.WorkingMemory

namespace RuleNet

abbrev TokenId := Nat

/-- The token at the top of every chain. -/
def rootToken : TokenId := 0

/-- One step of a match. -/
structure Token where
  parent : Option TokenId
  /-- The node that made it; the root token has none. -/
  node : Option NodeId
  depth : Nat
  /-- The fact it matches, if it matches one. -/
  handle : Option Handle
  /-- The result it carries, if it carries one. -/
  value : Option Value
  children : List TokenId
  deriving Inhabited, DecidableEq

/-- That a match reached a terminal, or is no more. -/
inductive MatchEvent where
  | formed (terminal : TerminalId) (token : TokenId)
  | broken (terminal : TerminalId) (token : TokenId)
  deriving DecidableEq

/-- What an alpha memory holds. -/
structure AlphaMemory where
  facts : IdSet
  /-- Members by the index keys of their indexed fields. -/
  index : Entries (Buckets Value)
  /-- Members in window order: by moment in time windows, by arrival otherwise. -/
  order : Std.ExtTreeSet (Int × Handle) dictionary
  /-- The place of each member in window order. -/
  positions : Std.ExtTreeMap Handle Int
  arrivals : Nat

def AlphaMemory.empty : AlphaMemory := ⟨∅, [], ∅, ∅, 0⟩

/-- What a beta node holds. -/
structure NodeMemory where
  left : IdSet
  /-- The key under which each left token is filed. -/
  leftKeys : Std.ExtTreeMap TokenId Value
  leftIndex : Buckets Value
  /-- The facts found for each left token, at nodes that ask for absence or presence. -/
  found : Std.ExtTreeMap TokenId IdSet
  /-- The left tokens that each fact was found for or folded into. -/
  foundBy : Index
  /-- The token passed on or made for each left token, at nodes other than joins. -/
  outputs : Std.ExtTreeMap TokenId TokenId
  accumulators : Std.ExtTreeMap TokenId Accumulator

def NodeMemory.empty : NodeMemory := ⟨∅, ∅, [], ∅, ∅, ∅, ∅⟩

/-- All partial matches of a session. -/
structure Matching where
  alphas : Std.ExtTreeMap AlphaId AlphaMemory
  nodes : Std.ExtTreeMap NodeId NodeMemory
  tokens : Std.ExtTreeMap TokenId Token
  nextToken : TokenId
  tokensByFact : Index
  /-- The alpha memories that each fact is in. -/
  memoriesOf : Std.ExtTreeMap Handle (List AlphaId)
  /-- What happened at terminals since it was last asked for. -/
  events : Array MatchEvent
  /-- The results to be looked at when an update ends, while one goes on. -/
  deferred : Option (Std.ExtTreeSet (NodeId × TokenId) dictionary)

namespace Matching

/-- Nothing but the root token. -/
def empty : Matching where
  alphas := ∅
  nodes := ∅
  tokens := (∅ : Std.ExtTreeMap TokenId Token).insert rootToken ⟨none, none, 0, none, none, []⟩
  nextToken := rootToken + 1
  tokensByFact := ∅
  memoriesOf := ∅
  events := #[]
  deferred := none

/-! ## Parts -/

def alpha (m : Matching) (a : AlphaId) : AlphaMemory := (m.alphas[a]?).getD .empty

def node (m : Matching) (n : NodeId) : NodeMemory := (m.nodes[n]?).getD .empty

def setAlpha (m : Matching) (a : AlphaId) (memory : AlphaMemory) : Matching :=
  { m with alphas := m.alphas.insert a memory }

def setNode (m : Matching) (n : NodeId) (memory : NodeMemory) : Matching :=
  { m with nodes := m.nodes.insert n memory }

/-- Note what happened at terminals. -/
def note (m : Matching) (events : List MatchEvent) : Matching :=
  { m with events := m.events.appendList events }

def tokenCount (m : Matching) : Nat := m.tokens.size

/-- The number of left tokens that all nodes hold together. -/
def leftCount (m : Matching) : Nat := m.nodes.foldl (fun n _ memory => n + memory.left.size) 0

/-- The members of a memory whose field has the index key of a value. -/
def lookUp (m : Matching) (a : AlphaId) (field : String) (value : Value) : IdSet :=
  match (m.alpha a).index.find? field with
  | some buckets => buckets.get value.indexKey
  | none => ∅

/-! ## Chains -/

/-- The token and the tokens above it, up to the root. -/
def chain (m : Matching) (t : TokenId) : List Token := match m.tokens[t]? with
  | none => []
  | some token => match token.parent with
    | none => [token]
    | some parent => if parent < t then token :: m.chain parent else [token]
termination_by t

/-- The token of a chain at a depth. -/
def atDepth? (m : Matching) (t : TokenId) (depth : Nat) : Option Token :=
  ((m.chain t).find? fun token => token.depth ≤ depth).filter fun token => token.depth == depth

/-- The fact matched at a depth. -/
def handleAt? (m : Matching) (t : TokenId) (depth : Nat) : Option Handle :=
  (m.atDepth? t depth).bind Token.handle

/-- What places hold on the chain of a token. -/
def view (m : Matching) (store : WorkingMemory) (t : TokenId) : View Place where
  value
    | .field depth name => match m.handleAt? t depth with
      | some h => store.valueOf h name
      | none => .null
    | .result depth => ((m.atDepth? t depth).bind Token.value).getD .null
    | .fact _ => .null
  moment
    | .fact depth => (m.handleAt? t depth).bind store.moment?
    | _ => none

/-- The facts of a chain, from the root. -/
def chainHandles (m : Matching) (t : TokenId) : List Handle :=
  ((m.chain t).filterMap Token.handle).reverse

/-- The variables of the match that ends in a token. -/
def binding (m : Matching) (store : WorkingMemory) (scope : List (String × Place)) (t : TokenId) :
    Binding where
  facts := scope.filterMap fun (name, place) => match place with
    | .fact depth => (m.handleAt? t depth).map (name, ·)
    | _ => none
  values := scope.filterMap fun (name, place) => match place with
    | .fact _ => none
    | place => some (name, (m.view store t).value place)
  handles := m.chainHandles t

/-- Live children, which are all younger. -/
def childrenOf (m : Matching) (t : TokenId) : List { c : TokenId // t < c ∧ c < m.nextToken } :=
  match m.tokens[t]? with
  | none => []
  | some token => token.children.filterMap fun c =>
    if h : t < c ∧ c < m.nextToken then some ⟨c, h⟩ else none

/-- A live token and all tokens below it, each after those below it. -/
def subtree (m : Matching) (t : TokenId) : List TokenId :=
  if m.tokens.contains t then (m.childrenOf t).flatMap (fun c => m.subtree c.1) ++ [t] else []
termination_by m.nextToken - t
decreasing_by exact Nat.sub_lt_sub_left (Nat.lt_trans c.2.1 c.2.2) c.2.1

end Matching

end RuleNet
