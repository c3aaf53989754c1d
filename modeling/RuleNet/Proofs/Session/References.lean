/-
  Compiled references always resolve.

  * `Matching.Forest.atDepth?_over`: the chain of a live token has a token for every node above it.
  * `Session.Linked`: the tokens of a chain carry what the nodes above add.
  * `Session.Reads`: what is asked of a chain is there, and no default is read for it.
  * `Session.references_of_reached`: what a node or a terminal of a rule base asks for is brought by
    the nodes above it, and in every session that requests lead to it is read off the chain of every
    live token.
-/
import RuleNet.Proofs.Network.Answered
import RuleNet.Proofs.Session.Pending

namespace RuleNet

/-! ## Chains -/

namespace Matching.Forest

variable {net : Network} {m : Matching}

/-- A chain has one token at each depth, from that of its last token down to the root. -/
theorem depths (W : net.WellFormed) (F : m.Forest net) {t : TokenId} {o : Origin}
    (h : m.origin? t = some o) :
    (m.chain t).map Token.depth = (List.range (o.depth + 1)).reverse := by
  refine F.induction (P := fun t o =>
    (m.chain t).map Token.depth = (List.range (o.depth + 1)).reverse) ?_ ?_ t o h
  · obtain ⟨token, hchain, ho⟩ := chain_root F
    have hdepth : token.depth = 0 := congrArg Origin.depth ho
    rw [hchain, List.map_singleton, hdepth]
    rfl
  · intro t p n node o above ho hp hn hnode hlt habove heq hdepth ih
    obtain ⟨token, hchain, htoken⟩ := chain_made ho hp hlt
    have hd : token.depth = o.depth := congrArg Origin.depth htoken
    -- the token is one step deeper than its parent, as its match is one step longer
    have hlength := (length_matchOf W F ho).1
    rw [matchOf_made ho hp hlt habove, List.length_append, (length_matchOf W F habove).1,
      List.length_singleton] at hlength
    rw [hchain, List.map_cons, ih, hd, ← hlength, List.range_succ (n := above.depth + 1),
      List.reverse_append]
    rfl

/-- A live token is as deep as its node. -/
theorem depth_eq (F : m.Forest net) {t : TokenId} {o : Origin}
    (h : m.origin? t = some o) : o.depth + 1 = net.depthUnder o.node := by
  cases hn : o.node with
  | none =>
    obtain rfl := F.eq_root ⟨o, h, hn⟩
    obtain rfl := Option.some.inj (F.root.symm.trans h)
    rfl
  | some n =>
    obtain ⟨p, n', node, above, -, hn', hnode, -, -, -, hdepth⟩ := F.made h (F.ne_root h hn)
    obtain rfl := Option.some.inj (hn.symm.trans hn')
    rw [Network.depthUnder, Network.depthOf_eq hnode, hdepth]

/-- The chain of a live token has a token of every node above, at the node's depth. -/
theorem atDepth?_over (W : net.WellFormed) (F : m.Forest net) {t : TokenId} {o : Origin}
    (h : m.origin? t = some o) : ∀ k above, net.Over o.node k above →
      ∃ token left c, m.atDepth? t above.depth = some token ∧ token.node = some k ∧
        m.Made k left c token.step := by
  refine F.induction (P := fun t o => ∀ k above, net.Over o.node k above →
      ∃ token left c, m.atDepth? t above.depth = some token ∧ token.node = some k ∧
        m.Made k left c token.step) ?_ ?_ t o h
  · intro k above hover
    obtain ⟨n, hn, -⟩ := hover.within
    cases hn
  · intro t p n node o above ho hp hn hnode hlt habove heq hdepth ih k up hover
    obtain ⟨token, hchain, htoken⟩ := chain_made ho hp hlt
    have hd : token.depth = node.depth := (congrArg Origin.depth htoken).trans hdepth
    have hstep : token.step = o.step := congrArg Origin.step htoken
    have htnode : token.node = some n := (congrArg Origin.node htoken).trans hn
    obtain ⟨n', hn', hwithin⟩ := hover.within
    obtain rfl := Option.some.inj (hn.symm.trans hn')
    rw [atDepth?, hchain, List.find?_cons]
    cases hwithin with
    | self =>
      obtain rfl := Option.some.inj (hnode.symm.trans hover.node)
      refine ⟨token, p, t, ?_, htnode, hstep ▸ made_of_origin ho hn hp⟩
      rw [decide_eq_true (Nat.le_of_eq hd), Option.filter_some, hd, beq_self_eq_true, if_pos rfl]
    | step hnode' hparent hw =>
      obtain rfl := Option.some.inj (hnode.symm.trans hnode')
      have hlt : up.depth < node.depth := by
        have h := W.depth_lt_of_beneath ⟨_, _, hnode, hparent, hw⟩
        rwa [Network.depthOf_eq hover.node, Network.depthOf_eq hnode] at h
      rw [decide_eq_false (Nat.not_le.2 (hd ▸ hlt))]
      exact ih k up ⟨hover.node, _, heq.trans hparent, hw⟩

end Matching.Forest

namespace Session

variable {s : Session}

/-! ## Sessions -/

/-- The chain of a token that stands after a node has one token for each depth; that of a join above
    holds a live fact of the join's type, and that of a fold above holds a result. -/
structure Linked (s : Session) (last : Option NodeId) (t : TokenId) : Prop where
  depths : (s.matching.chain t).map Token.depth = (List.range (s.network.depthUnder last)).reverse
  joins : ∀ {k node feed}, s.network.Over last k node → node.kind = .join feed →
    ∃ token h entry alpha, s.matching.atDepth? t node.depth = some token ∧ token.node = some k ∧
      token.handle = some h ∧ s.store.entry? h = some entry ∧
      s.network.alpha? feed.alpha = some alpha ∧ entry.fact.type = alpha.type
  folds : ∀ {k node feed fold having}, s.network.Over last k node →
    node.kind = .accumulate feed fold having →
    ∃ token v, s.matching.atDepth? t node.depth = some token ∧ token.node = some k ∧
      token.value = some v

/-- What is asked of the chain of a token is there: values are those of live facts, under fields that
    their types declare, and of folded results, and moments are those of live facts. -/
def Reads (s : Session) (t : TokenId) : Access → Prop
  | .value (.field depth field) => ∃ h entry type, s.matching.handleAt? t depth = some h ∧
    s.store.entry? h = some entry ∧ s.base.type? entry.fact.type = some type ∧
    type.hasField field = true ∧
    (s.matching.view s.store t).value (.field depth field) = entry.fact.value field
  | .value (.result depth) => ∃ token v, s.matching.atDepth? t depth = some token ∧
    token.value = some v ∧ (s.matching.view s.store t).value (.result depth) = v
  | .value (.fact _) => False
  | .moment (.fact depth) => ∃ h entry, s.matching.handleAt? t depth = some h ∧
    s.store.entry? h = some entry ∧
    (s.matching.view s.store t).moment (.fact depth) = some entry.moment
  | .moment _ => False
  | .handle depth => ∃ h entry, s.matching.handleAt? t depth = some h ∧
    s.store.entry? h = some entry

/-- A join makes tokens for members of its memory. -/
theorem Steady.member_of_made (hs : s.Steady) {k : NodeId} {node : BetaNode} {feed : Feed}
    (hk : s.network.node? k = some node) (hkind : node.kind = .join feed) {left t : TokenId}
    (hleft : s.matching.LiveAt left node.parent) {h : Handle}
    (hmade : s.matching.Made k left t (.fact h)) : h ∈ s.matching.members feed.alpha := by
  have hsettled := hs.kept.sound.settled hk hleft id
  rw [hkind] at hsettled
  obtain ⟨hmember, -⟩ | ⟨hlate, -⟩ := (hsettled.2.1 h).1 ⟨t, hmade⟩
  · exact hmember
  · exact hlate.elim

/-- The chain of a live token has a member of its memory for every join above. -/
theorem Steady.joined (hs : s.Steady) (W : s.network.WellFormed) {last : Option NodeId} {t : TokenId}
    (ht : s.matching.LiveAt t last) {k : NodeId} {node : BetaNode} {feed : Feed}
    (hover : s.network.Over last k node) (hkind : node.kind = .join feed) :
    ∃ token h, s.matching.atDepth? t node.depth = some token ∧ token.node = some k ∧
      token.handle = some h ∧ h ∈ s.matching.members feed.alpha := by
  have S := hs.kept.sound
  have F := S.forest
  obtain ⟨o, ho, rfl⟩ := ht
  obtain ⟨token, left, c, hat, hnode, hmade⟩ := F.atDepth?_over W ho k node hover
  obtain ⟨h, hstep⟩ := S.carries hmade (hkind ▸ Network.kind?_eq hover.node)
  rw [hstep] at hmade
  obtain ⟨-, node', hn', hleft⟩ := hmade.leftOf F
  obtain rfl := Option.some.inj (hover.node.symm.trans hn')
  exact ⟨token, h, hat, hnode, congrArg Matching.Extension.handle hstep,
    hs.member_of_made hover.node hkind hleft hmade⟩

/-- Live tokens are linked to what the nodes above them add. -/
theorem Steady.linked (hs : s.Steady) (W : s.network.WellFormed) {last : Option NodeId} {t : TokenId}
    (ht : s.matching.LiveAt t last) : s.Linked last t := by
  have S := hs.kept.sound
  have F := S.forest
  obtain ⟨o, ho, rfl⟩ := ht
  refine ⟨by rw [F.depths W ho, F.depth_eq ho], fun {k node feed} hover hkind => ?_,
    fun {k node feed fold having} hover hkind => ?_⟩
  · obtain ⟨token, h, hat, hnode, hhandle, hmember⟩ := hs.joined W ⟨o, ho, rfl⟩ hover hkind
    obtain ⟨alpha, entry, halpha, hentry, htype⟩ := hs.kept.stocked.typed hmember
    exact ⟨token, h, entry, alpha, hat, hnode, hhandle, hentry, halpha, htype⟩
  · obtain ⟨token, left, c, hat, hnode, hmade⟩ := F.atDepth?_over W ho k node hover
    obtain ⟨v, hstep⟩ := S.carries hmade (hkind ▸ Network.kind?_eq hover.node)
    exact ⟨token, v, hat, hnode, congrArg Matching.Extension.value hstep⟩

/-- What the nodes above a live token bring is read off its chain. -/
theorem Linked.reads {last : Option NodeId} {t : TokenId} (L : s.Linked last t) {x : Access}
    (hx : s.network.Answered s.base.types last x) : s.Reads t x := by
  have hjoin : ∀ {depth type}, s.network.MatchedOver s.base.types last depth type →
      ∃ h entry, s.matching.handleAt? t depth = some h ∧ s.store.entry? h = some entry ∧
        s.base.type? entry.fact.type = some type := by
    rintro depth type ⟨k, node, feed, alpha, hover, rfl, hkind, halpha, htype⟩
    obtain ⟨token, h, entry, alpha', hat, -, hhandle, hentry, halpha', hfact⟩ := L.joins hover hkind
    obtain rfl := Option.some.inj (halpha.symm.trans halpha')
    refine ⟨h, entry, ?_, hentry, by rw [hfact]; exact htype⟩
    rw [Matching.handleAt?, hat]
    exact hhandle
  cases x with
  | value place => cases place with
    | fact depth => exact hx
    | field depth field =>
      obtain ⟨type, hmatched, hfield⟩ := hx
      obtain ⟨h, entry, hat, hentry, htype⟩ := hjoin hmatched
      refine ⟨h, entry, type, hat, hentry, htype, hfield, ?_⟩
      simp only [Matching.view, hat, WorkingMemory.valueOf, WorkingMemory.fact?, hentry,
        Option.map_some]
    | result depth =>
      obtain ⟨k, node, feed, fold, having, hover, rfl, hkind⟩ := hx
      obtain ⟨token, v, hat, -, hvalue⟩ := L.folds hover hkind
      refine ⟨token, v, hat, hvalue, ?_⟩
      simp only [Matching.view, hat, Option.bind_some, hvalue, Option.getD_some]
  | moment place => cases place with
    | fact depth =>
      obtain ⟨type, hmatched⟩ := hx
      obtain ⟨h, entry, hat, hentry, -⟩ := hjoin hmatched
      refine ⟨h, entry, hat, hentry, ?_⟩
      simp only [Matching.view, hat, Option.bind_some, WorkingMemory.moment?, hentry,
        Option.map_some]
    | field depth field => exact hx
    | result depth => exact hx
  | handle depth =>
    obtain ⟨type, hmatched⟩ := hx
    obtain ⟨h, entry, hat, hentry, -⟩ := hjoin hmatched
    exact ⟨h, entry, hat, hentry⟩

/-- The left tokens of a node stand after its parent. -/
theorem Steady.liveAt_of_left (hs : s.Steady) {n : NodeId} {node : BetaNode}
    (hn : s.network.node? n = some node) {left : TokenId} (hl : left ∈ (s.matching.node n).left) :
    s.matching.LiveAt left node.parent := by
  refine Classical.byContradiction fun hno => ?_
  have hblank : s.matching.about n left = .blank := hs.kept.sound.blank fun ⟨node', hn', hlive⟩ => by
    obtain rfl := Option.some.inj (hn.symm.trans hn')
    exact hno hlive
  have harrived : (s.matching.node n).left.contains left = false :=
    congrArg LeftRecord.arrived hblank
  rw [Std.ExtTreeSet.contains_iff_mem.2 hl] at harrived
  cases harrived

/-- Compiled references always resolve. What a node asks of the chains of its left tokens, or a
    terminal of those of its tokens, is brought by the nodes above it; in every session that requests
    lead to, the chains of these tokens are linked to what the nodes above add, and all that is asked
    for is read off them. -/
theorem references_of_reached {declarations : Declarations} {base : RuleBase} {settings : Settings}
    (hb : declarations.build = .ok base) (hs : Reached base settings s) :
    (∀ n node, base.network.node? n = some node →
      (∀ x ∈ node.kind.accesses, base.network.Answered base.types node.parent x) ∧
      ∀ left ∈ (s.matching.node n).left, s.Linked node.parent left ∧
        ∀ x ∈ node.kind.accesses, s.Reads left x) ∧
    ∀ τ terminal, base.network.terminal? τ = some terminal →
      (∀ x ∈ scopeAccesses terminal.scope, base.network.Answered base.types terminal.node x) ∧
      ∀ t, s.matching.LiveAt t terminal.node → s.Linked terminal.node t ∧
        ∀ x ∈ scopeAccesses terminal.scope, s.Reads t x := by
  have W := Declarations.wellFormed_build hb
  obtain ⟨hsteady, rfl, -⟩ := hs.steady W
  obtain ⟨hnodes, hterminals⟩ := (Declarations.founded_build hb).answered W
  refine ⟨fun n node hn => ⟨hnodes hn, fun left hleft => ?_⟩,
    fun τ terminal hτ => ⟨hterminals hτ, fun t ht => ?_⟩⟩
  · have L := hsteady.linked W (hsteady.liveAt_of_left hn hleft)
    exact ⟨L, fun x hx => L.reads (hnodes hn x hx)⟩
  · have L := hsteady.linked W ht
    exact ⟨L, fun x hx => L.reads (hterminals hτ x hx)⟩

end Session

/-! ## Two rules that share a node -/

/-- Each state goes with the events that name it, in one rule one by one and in the other one by their
    number. The rules name the state differently. -/
def Declarations.named : Declarations where
  types := [⟨"state", [("id", .integer)], .fact, none, none⟩,
    ⟨"event", [("name", .integer)], .event, none, none⟩]
  rules := [⟨"pair", 0, mainGroup, false, false, false,
    .all [.pattern ⟨"state", none, [], [("x", "id")], none⟩,
      .pattern ⟨"event", some "e", [.compare "name" .equal (.var "x")], [], none⟩],
    fun _ => .done⟩,
    ⟨"number", 0, mainGroup, false, false, false,
    .all [.pattern ⟨"state", some "s", [], [("y", "id")], none⟩,
      .accumulate ⟨⟨"event", none, [.compare "name" .equal (.field "s" "id")], [], none⟩, .count,
        "n", some (.greaterOrEqual, .var "y")⟩],
    fun _ => .done⟩]
  queries := []

namespace Session

/-- State 1 comes, then an event that names it. -/
def namedRun (base : RuleBase) : Session :=
  ((start base { Settings.standard with clock := .manual } 0).change
    (.insert ⟨"state", [("id", .integer 1)]⟩)).change
    (.insert ⟨"event", [("name", .integer 1)]⟩)

/-- The rules share their first node, whose token is a left token of both second nodes. -/
theorem references_of_reached_namedRun : ∃ base, Declarations.named.build = .ok base ∧
    Reached base { Settings.standard with clock := .manual } (namedRun base) ∧
    base.network.sharedNodes = 1 ∧
    ∀ n ∈ [1, 2], ∃ node left, base.network.node? n = some node ∧
      left ∈ ((namedRun base).matching.node n).left ∧ node.kind.accesses ≠ [] ∧
      (namedRun base).Linked node.parent left ∧
      ∀ x ∈ node.kind.accesses, (namedRun base).Reads left x := by
  obtain ⟨base, hb, hrun⟩ := Declarations.build_of_passes .named
    (fun base => decide (base.network.sharedNodes = 1) && [1, 2].all fun n =>
      (base.network.node? n).any fun node =>
        ((namedRun base).matching.node n).left.contains 1 && !node.kind.accesses.isEmpty)
    (by decide +kernel)
  rw [Bool.and_eq_true] at hrun
  have hs : Reached base { Settings.standard with clock := .manual } (namedRun base) :=
    ((Reached.start 0).change _).change _
  refine ⟨base, hb, hs, of_decide_eq_true hrun.1, fun n hn => ?_⟩
  have hnode := List.all_eq_true.1 hrun.2 n hn
  rw [Option.any_eq_true] at hnode
  obtain ⟨node, hnode, hleft⟩ := hnode
  rw [Bool.and_eq_true, Bool.not_eq_true', List.isEmpty_eq_false_iff] at hleft
  have hmem := Std.ExtTreeSet.contains_iff_mem.1 hleft.1
  obtain ⟨L, hreads⟩ := ((references_of_reached hb hs).1 n node hnode).2 1 hmem
  exact ⟨node, 1, hnode, hmem, hleft.2, L, hreads⟩

end Session

end RuleNet
