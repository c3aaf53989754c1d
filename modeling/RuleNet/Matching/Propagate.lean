/-
  Propagation: how matches grow and go.

  * `Matching.emit` makes a token and lets it arrive at every node below, which may make tokens in
    turn; nodes below come later in the network, so this ends.
  * `Matching.delete` takes a token away with all tokens below it.
  * `Matching.assertRight` and `Matching.retractRight`: a fact comes to or leaves the memory that
    feeds a node.
  * `Matching.refresh`: the token of a folded result is made anew.
-/
import RuleNet.Matching.Memory

namespace RuleNet.Matching

/-! ## Finding facts -/

/-- The members of a feed's memory that its look-up leaves for a left token. -/
def feedMembers (m : Matching) (store : WorkingMemory) (feed : Feed) (left : TokenId) :
    List Handle :=
  match feed.index with
  | some index => (m.lookUp feed.alpha index.field ((m.view store left).value index.place)).toList
  | none => (m.alpha feed.alpha).facts.toList

/-- Whether a live fact passes tests for a left token. -/
def passes (m : Matching) (store : WorkingMemory) (tests : List (Test Place)) (left : TokenId)
    (h : Handle) : Bool :=
  match store.entry? h with
  | some entry => Test.allHold (m.view store left) entry.fact entry.moment tests
  | none => false

/-- The facts of a feed that go with a left token. -/
def partners (m : Matching) (store : WorkingMemory) (feed : Feed) (left : TokenId) : List Handle :=
  (m.feedMembers store feed left).filter fun h => m.passes store feed.tests left h

/-- What a fact contributes to a fold. -/
def contribution (store : WorkingMemory) (fold : Fold) (h : Handle) : Value :=
  match fold.field? with
  | some field => store.valueOf h field
  | none => .null

/-- The result that a left token's accumulator passes on, if it is defined and meets the condition
    on it. -/
def gatedResult? (m : Matching) (store : WorkingMemory)
    (having : Option (Operator × TestOperand Place)) (left : TokenId) (acc : Accumulator) :
    Option Value :=
  acc.result?.filter fun value => match having with
    | some (operator, operand) => operator.apply value (operand.resolve (m.view store left))
    | none => true

/-! ## Arrivals -/

/-- What a token adds to its parent. -/
structure Extension where
  handle : Option Handle
  value : Option Value
  deriving DecidableEq

def Extension.fact (h : Handle) : Extension := ⟨some h, none⟩

def Extension.nothing : Extension := ⟨none, none⟩

def Extension.result (v : Value) : Extension := ⟨none, some v⟩

/-- File a left token with its node. -/
def fileLeft (m : Matching) (store : WorkingMemory) (n : NodeId) (kind : NodeKind)
    (left : TokenId) : Matching :=
  let memory := { m.node n with left := (m.node n).left.insert left }
  m.setNode n <| match kind.index? with
    | none => memory
    | some index =>
      let key := ((m.view store left).value index.place).indexKey
      { memory with
        leftKeys := memory.leftKeys.insert left key
        leftIndex := memory.leftIndex.file key left }

/-- Note the facts found for a left token. -/
def fileFound (m : Matching) (n : NodeId) (left : TokenId) (facts : List Handle) : Matching :=
  let memory := m.node n
  m.setNode n { memory with
    found := memory.found.insert left (facts.foldl (fun set h => set.insert h) ∅)
    foundBy := facts.foldl (fun index h => index.file h left) memory.foundBy }

/-- Note the accumulator of a left token. -/
def fileAccumulator (m : Matching) (n : NodeId) (left : TokenId) (acc : Accumulator) : Matching :=
  let memory := m.node n
  m.setNode n { memory with
    accumulators := memory.accumulators.insert left acc
    foundBy := acc.contributors.foldl (fun index h => index.file h left) memory.foundBy }

/-- A token arrives at a node: it is filed there, and what the node passes on for it is returned.
    While results are deferred, a result is only marked. -/
def arrive (m : Matching) (net : Network) (store : WorkingMemory) (n : NodeId) (left : TokenId) :
    List Extension × Matching :=
  match net.kind? n with
  | none => ([], m)
  | some kind =>
    let m := m.fileLeft store n kind left
    match kind with
    | .join feed => ((m.partners store feed left).map Extension.fact, m)
    | .absent feed =>
      let facts := m.partners store feed left
      (if facts.isEmpty then [.nothing] else [], m.fileFound n left facts)
    | .present feed =>
      let facts := m.partners store feed left
      (if facts.isEmpty then [] else [.nothing], m.fileFound n left facts)
    | .accumulate feed fold having =>
      let acc := Accumulator.ofList fold
        ((m.partners store feed left).map fun h => (h, contribution store fold h))
      let m := m.fileAccumulator n left acc
      match m.deferred with
      | some dirty => ([], { m with deferred := some (dirty.insert (n, left)) })
      | none => ((m.gatedResult? store having left acc).toList.map Extension.result, m)
    | .predicate p scope =>
      (if p.holds (m.binding store scope left) then [.nothing] else [], m)

/-! ## Growing -/

/-- Make a token of a node, under a parent. -/
def addToken (m : Matching) (net : Network) (n : NodeId) (parent : TokenId) (ext : Extension) :
    Matching :=
  let t := m.nextToken
  let token : Token := ⟨some parent, some n, net.depthOf n, ext.handle, ext.value, []⟩
  let tokens := (m.tokens.insert t token).modify parent fun token =>
    { token with children := token.children ++ [t] }
  let m := { m with
    tokens
    nextToken := t + 1
    tokensByFact := match ext.handle with
      | some h => m.tokensByFact.file h t
      | none => m.tokensByFact }
  let m :=
    if (net.kind? n).any NodeKind.isJoin then m
    else m.setNode n { m.node n with outputs := (m.node n).outputs.insert parent t }
  m.note ((net.terminalsOf n).map fun terminal => .formed terminal t)

/-- Make a token of a node and let it arrive at the nodes below. -/
def emit (net : Network) (store : WorkingMemory) (n : NodeId) (parent : TokenId) (ext : Extension)
    (m : Matching) : Matching :=
  let t := m.nextToken
  (net.below n).foldl
    (fun m child =>
      let (extensions, m) := m.arrive net store child.1 t
      extensions.foldl (fun m ext => emit net store child.1 t ext m) m)
    (m.addToken net n parent ext)
termination_by net.nodes.size - n
decreasing_by exact Nat.sub_lt_sub_left (Nat.lt_trans child.2.1 child.2.2) child.2.1

/-- A token arrives at a node from outside the propagation of another one. -/
def activateLeft (net : Network) (store : WorkingMemory) (n : NodeId) (left : TokenId)
    (m : Matching) : Matching :=
  let (extensions, m) := m.arrive net store n left
  extensions.foldl (fun m ext => emit net store n left ext m) m

/-! ## Going -/

/-- Take a left token away from a node. -/
def removeLeft (m : Matching) (n : NodeId) (left : TokenId) : Matching :=
  let memory := m.node n
  let released := ((memory.found[left]?).getD ∅).toList ++
    ((memory.accumulators[left]?).map Accumulator.contributors).getD []
  let m := m.setNode n
    { left := memory.left.erase left
      leftKeys := memory.leftKeys.erase left
      leftIndex := match memory.leftKeys[left]? with
        | some key => memory.leftIndex.unfile key left
        | none => memory.leftIndex
      found := memory.found.erase left
      foundBy := released.foldl (fun index h => index.unfile h left) memory.foundBy
      outputs := memory.outputs.erase left
      accumulators := memory.accumulators.erase left }
  { m with deferred := m.deferred.map fun dirty => dirty.erase (n, left) }

/-- Take one token away, whose children are gone. -/
def dropToken (net : Network) (m : Matching) (t : TokenId) : Matching :=
  match m.tokens[t]? with
  | none => m
  | some token =>
    let m := { m with tokens := m.tokens.erase t }
    let m := match token.node with
      | none => m
      | some n =>
        let m := m.note ((net.terminalsOf n).map fun terminal => .broken terminal t)
        (net.childrenOf n).foldl (fun m child => m.removeLeft child t) m
    { m with
      tokensByFact := match token.handle with
        | some h => m.tokensByFact.unfile h t
        | none => m.tokensByFact
      tokens := match token.parent with
        | some parent => m.tokens.modify parent fun token =>
          { token with children := token.children.filter (· != t) }
        | none => m.tokens }

/-- Take a token away with everything below it. -/
def delete (net : Network) (t : TokenId) (m : Matching) : Matching :=
  (m.subtree t).foldl (dropToken net) m

/-- Take away the token that a node passed on for a left token, if it did. -/
def withdraw (net : Network) (n : NodeId) (left : TokenId) (m : Matching) : Matching :=
  let memory := m.node n
  match memory.outputs[left]? with
  | none => m
  | some out => (m.setNode n { memory with outputs := memory.outputs.erase left }).delete net out

/-! ## Results -/

/-- Make the token of a folded result anew. -/
def renew (net : Network) (store : WorkingMemory) (n : NodeId) (left : TokenId)
    (result : Option Value) (m : Matching) : Matching :=
  let m := m.withdraw net n left
  match result with
  | some value => m.emit net store n left (.result value)
  | none => m

/-- The result that stands for a left token. -/
def standing? (m : Matching) (n : NodeId) (left : TokenId) : Option Value := do
  let out ← (m.node n).outputs[left]?
  let token ← m.tokens[out]?
  token.value

/-- The contributions of a left token have changed: its result is made anew, or only marked while
    results are deferred. -/
def refresh (net : Network) (store : WorkingMemory) (n : NodeId) (left : TokenId) (m : Matching) :
    Matching :=
  match m.deferred with
  | some dirty => { m with deferred := some (dirty.insert (n, left)) }
  | none => match net.kind? n, (m.node n).accumulators[left]? with
    | some (.accumulate _ _ having), some acc =>
      m.renew net store n left (m.gatedResult? store having left acc)
    | _, _ => m

/-- Make a result anew if it differs from the one that stands. -/
def settle (net : Network) (store : WorkingMemory) (n : NodeId) (left : TokenId) (m : Matching) :
    Matching :=
  match net.kind? n, (m.node n).accumulators[left]? with
  | some (.accumulate _ _ having), some acc =>
    let result := m.gatedResult? store having left acc
    if m.standing? n left == result then m else m.renew net store n left result
  | _, _ => m

/-! ## Facts at nodes -/

/-- The left tokens that a fact's key leaves at a node. -/
def leftCandidates (m : Matching) (store : WorkingMemory) (n : NodeId) (feed : Feed) (h : Handle) :
    List TokenId :=
  match feed.index with
  | some index => ((m.node n).leftIndex.get (store.valueOf h index.field).indexKey).toList
  | none => (m.node n).left.toList

/-- One more fact is found for a left token; whether it is the first one. -/
def find (m : Matching) (n : NodeId) (left : TokenId) (h : Handle) : Bool × Matching :=
  let memory := m.node n
  let facts := (memory.found[left]?).getD ∅
  (facts.isEmpty, m.setNode n { memory with
    found := memory.found.insert left (facts.insert h)
    foundBy := memory.foundBy.file h left })

/-- A fact goes with a left token of a node. -/
def meet (net : Network) (store : WorkingMemory) (n : NodeId) (kind : NodeKind) (h : Handle)
    (m : Matching) (left : TokenId) : Matching :=
  match kind with
  | .join _ => m.emit net store n left (.fact h)
  | .absent _ =>
    let (first, m) := m.find n left h
    if first then m.withdraw net n left else m
  | .present _ =>
    let (first, m) := m.find n left h
    if first then m.emit net store n left .nothing else m
  | .accumulate _ fold _ =>
    let memory := m.node n
    match memory.accumulators[left]? with
    | none => m
    | some acc =>
      (m.setNode n { memory with
        accumulators := memory.accumulators.insert left (acc.add h (contribution store fold h))
        foundBy := memory.foundBy.file h left }).refresh net store n left
  | .predicate _ _ => m

/-- A fact has come to the memory that feeds a node. -/
def assertRight (net : Network) (store : WorkingMemory) (h : Handle) (m : Matching) (n : NodeId) :
    Matching :=
  match net.kind? n with
  | none => m
  | some kind => match kind.feed? with
    | none => m
    | some feed =>
      let lefts := (m.leftCandidates store n feed h).filter fun left =>
        m.passes store feed.tests left h
      lefts.foldl (meet net store n kind h) m

/-- A fact no longer goes with a left token of a node. -/
def part (net : Network) (store : WorkingMemory) (n : NodeId) (kind : NodeKind) (h : Handle)
    (m : Matching) (left : TokenId) : Matching :=
  let memory := m.node n
  match kind with
  | .join _ | .predicate _ _ => m
  | .absent _ | .present _ => match memory.found[left]? with
    | none => m
    | some facts =>
      let rest := facts.erase h
      let m := m.setNode n { memory with found := memory.found.insert left rest }
      if !facts.contains h || !rest.isEmpty then m
      else match kind with
        | .absent _ => m.emit net store n left .nothing
        | _ => m.withdraw net n left
  | .accumulate _ _ _ => match memory.accumulators[left]? with
    | none => m
    | some acc =>
      if acc.contains h then
        (m.setNode n { memory with
          accumulators := memory.accumulators.insert left (acc.remove h) }).refresh net store n left
      else m

/-- A fact has left the memory that feeds a node. -/
def retractRight (net : Network) (store : WorkingMemory) (h : Handle) (m : Matching) (n : NodeId) :
    Matching :=
  match net.kind? n with
  | none => m
  | some kind =>
    let memory := m.node n
    let lefts := (memory.foundBy.get h).toList
    let m := m.setNode n { memory with foundBy := memory.foundBy.erase h }
    lefts.foldl (part net store n kind h) m

end RuleNet.Matching
