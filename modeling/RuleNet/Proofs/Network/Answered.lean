/-
  Every place that a node asks for is brought by a node above it.

  * `Network.Over`: a node at or above another one.
  * `Network.Answers`: what the nodes above bring.
  * `Network.Founded`: all nodes and terminals ask for what is brought above them.
  * `Declarations.founded_build`: so it is in the network of a rule base, also where branches share
    their first nodes.
-/
import RuleNet.Proofs.Network.Access
import RuleNet.Proofs.Network.Agreement
import RuleNet.Proofs.Network.Carried

namespace RuleNet

namespace Network

variable {net net' : Network} {types : Types}

/-! ## Nodes above -/

/-- A node that is the last one or stands above it; nothing stands above the root. -/
structure Over (net : Network) (last : Option NodeId) (k : NodeId) (node : BetaNode) : Prop where
  node : net.node? k = some node
  within : ∃ n, last = some n ∧ net.Within k n

/-- A node above matches facts of a declared type. -/
def MatchedOver (net : Network) (types : Types) (last : Option NodeId) (depth : Nat)
    (type : FactType) : Prop :=
  ∃ k node feed alpha, net.Over last k node ∧ node.depth = depth ∧ node.kind = .join feed ∧
    net.alpha? feed.alpha = some alpha ∧ types.find? alpha.type = some type

/-- A node above folds facts to a result. -/
def FoldedOver (net : Network) (last : Option NodeId) (depth : Nat) : Prop :=
  ∃ k node feed fold having, net.Over last k node ∧ node.depth = depth ∧
    node.kind = .accumulate feed fold having

/-- The nodes above answer an access. -/
def Answered (net : Network) (types : Types) (last : Option NodeId) (x : Access) : Prop :=
  x.Answered (net.MatchedOver types last) (net.FoldedOver last)

theorem Over.below {n k p : NodeId} {node above : BetaNode} (hn : net.node? n = some node)
    (hp : node.parent = some p) (h : net.Over (some p) k above) : net.Over (some n) k above := by
  obtain ⟨hk, p', heq, hw⟩ := h
  cases heq
  exact ⟨hk, n, rfl, .step hn hp hw⟩

/-- The nodes on the way to a place are as many as it is deep, and stand above it in their order. -/
theorem WellFormed.branchTo_spec (W : net.WellFormed) {n : NodeId} {node : BetaNode}
    (hn : net.node? n = some node) : (net.branchTo n).length = node.depth ∧
      ∀ i kind, (net.branchTo n)[i]? = some kind →
        ∃ k above, net.Over (some n) k above ∧ above.depth = i + 1 ∧ above.kind = kind ∧
          net.branchTo k = (net.branchTo n).take (i + 1) := by
  induction n using Nat.strongRecOn generalizing node with
  | ind n ih =>
    have hself : net.Over (some n) n node := ⟨hn, n, rfl, .self⟩
    cases hparent : node.parent with
    | none =>
      have htop := branchTo_top hn hparent
      rw [htop, W.top hn hparent]
      refine ⟨rfl, fun i kind hi => ?_⟩
      cases i with
      | zero => exact ⟨n, node, hself, W.top hn hparent, Option.some.inj hi, htop⟩
      | succ i => cases hi
    | some p =>
      obtain ⟨hlt, above, habove, hdepth⟩ := W.parent hn hparent
      obtain ⟨hlength, hover⟩ := ih p hlt habove
      have hbelow := branchTo_below hn hparent hlt
      rw [hbelow]
      refine ⟨by rw [List.length_append, hlength, hdepth]; rfl, fun i kind hi => ?_⟩
      by_cases hlast : i < (net.branchTo p).length
      · rw [List.getElem?_append_left hlast] at hi
        obtain ⟨k, up, ho, hd, hkind, hbranch⟩ := hover i kind hi
        refine ⟨k, up, ho.below hn hparent, hd, hkind, ?_⟩
        rw [List.take_append_of_le_length hlast]
        exact hbranch
      · obtain ⟨hle, -⟩ := List.getElem?_eq_some_iff.1 hi
        rw [List.length_append, List.length_singleton] at hle
        obtain rfl : i = (net.branchTo p).length := by omega
        rw [List.getElem?_append_right (Nat.le_refl _), Nat.sub_self] at hi
        refine ⟨n, node, hself, by rw [hdepth, hlength], Option.some.inj hi, ?_⟩
        rw [hbelow, ← List.length_singleton, ← List.length_append, List.take_length]

theorem WellFormed.trail_over (W : net.WellFormed) {last : Option NodeId} (hl : net.Holds last)
    {i : Nat} {kind : NodeKind} (h : (net.trail last)[i]? = some kind) :
    ∃ k node, net.Over last k node ∧ node.depth = i + 1 ∧ node.kind = kind ∧
      net.branchTo k = (net.trail last).take (i + 1) := by
  cases last with
  | none => cases h
  | some n =>
    obtain ⟨node, hn⟩ := hl n rfl
    exact (W.branchTo_spec hn).2 i kind h

/-! ## Steps and nodes -/

/-- A node that does what a join asks for is a join, fed by a memory that takes what it should. -/
theorem Fits.join {supply : Supply} {tests : List (Test Place)} {kind : NodeKind}
    (h : net.Fits (.join supply tests) kind) :
    ∃ a, kind = .join (Sketch.feed a tests) ∧ net.Supplies a supply := by
  obtain ⟨a, hsame, hs⟩ := h
  cases kind with
  | join feed =>
    obtain rfl := of_decide_eq_true hsame
    exact ⟨a, rfl, hs supply rfl⟩
  | absent feed | present feed | accumulate feed fold having | predicate p places => cases hsame

/-- A node that does what an absence asks for is one. -/
theorem Fits.absent {supply : Supply} {tests : List (Test Place)} {kind : NodeKind}
    (h : net.Fits (.absent supply tests) kind) :
    ∃ a, kind = .absent (Sketch.feed a tests) ∧ net.Supplies a supply := by
  obtain ⟨a, hsame, hs⟩ := h
  cases kind with
  | absent feed =>
    obtain rfl := of_decide_eq_true hsame
    exact ⟨a, rfl, hs supply rfl⟩
  | join feed | present feed | accumulate feed fold having | predicate p places => cases hsame

/-- A node that does what a presence asks for is one. -/
theorem Fits.present {supply : Supply} {tests : List (Test Place)} {kind : NodeKind}
    (h : net.Fits (.present supply tests) kind) :
    ∃ a, kind = .present (Sketch.feed a tests) ∧ net.Supplies a supply := by
  obtain ⟨a, hsame, hs⟩ := h
  cases kind with
  | present feed =>
    obtain rfl := of_decide_eq_true hsame
    exact ⟨a, rfl, hs supply rfl⟩
  | join feed | absent feed | accumulate feed fold having | predicate p places => cases hsame

/-- A node that does what a fold asks for is a fold. -/
theorem Fits.accumulate {supply : Supply} {tests : List (Test Place)} {fold : Fold}
    {having : Option (Operator × TestOperand Place)} {kind : NodeKind}
    (h : net.Fits (.accumulate supply tests fold having) kind) :
    ∃ feed fold having, kind = .accumulate feed fold having := by
  obtain ⟨a, hsame, -⟩ := h
  cases kind with
  | accumulate feed fold having => exact ⟨feed, fold, having, rfl⟩
  | join feed | absent feed | present feed | predicate p places => cases hsame

theorem forall₂_getElem? {α β : Type} {R : α → β → Prop} {xs : List α} {ys : List β}
    (h : List.Forall₂ R xs ys) {i : Nat} {x : α} (hx : xs[i]? = some x) :
    ∃ y, ys[i]? = some y ∧ R x y := by
  induction h generalizing i with
  | nil => cases hx
  | cons hR _ ih =>
    cases i with
    | zero =>
      cases hx
      exact ⟨_, rfl, hR⟩
    | succ i => exact ih hx

/-- What steps bring is brought by the nodes that do what they ask for. -/
theorem WellFormed.answered (W : net.WellFormed) {last : Option NodeId} (hl : net.Holds last)
    {steps : List Sketch} (h : List.Forall₂ net.Fits steps (net.trail last)) {x : Access}
    (hx : x.AnsweredBy types steps) : net.Answered types last x := by
  refine hx.imp ?_ ?_
  · rintro depth type ⟨i, supply, tests, rfl, hi, htype⟩
    obtain ⟨kind, hkind, hfits⟩ := forall₂_getElem? h hi
    obtain ⟨a, rfl, alpha, ha, hsupply, -⟩ := hfits.join
    obtain ⟨k, node, hover, hdepth, hk, -⟩ := W.trail_over hl hkind
    exact ⟨k, node, _, alpha, hover, hdepth, hk, ha, hsupply ▸ htype⟩
  · rintro depth ⟨i, supply, tests, fold, having, rfl, hi⟩
    obtain ⟨kind, hkind, hfits⟩ := forall₂_getElem? h hi
    obtain ⟨feed, fold', having', rfl⟩ := hfits.accumulate
    obtain ⟨k, node, hover, hdepth, hk, -⟩ := W.trail_over hl hkind
    exact ⟨k, node, feed, fold', having', hover, hdepth, hk⟩

/-! ## Networks that are founded -/

/-- What is asked for at a place is brought by the steps that lead to it. -/
def FoundedAt (net : Network) (types : Types) (last : Option NodeId) (asked : List Access) : Prop :=
  ∃ steps, List.Forall₂ net.Fits steps (net.trail last) ∧ ∀ x ∈ asked, x.AnsweredBy types steps

/-- All nodes and terminals ask for what is brought above them. -/
structure Founded (net : Network) (types : Types) : Prop where
  nodes : ∀ {n node}, net.node? n = some node → net.FoundedAt types node.parent node.kind.accesses
  terminals : ∀ {τ terminal}, net.terminal? τ = some terminal →
    net.FoundedAt types terminal.node (scopeAccesses terminal.scope)

theorem FoundedAt.extend {last : Option NodeId} {asked : List Access}
    (h : net.FoundedAt types last asked) (E : net.Extends net') (W : net.WellFormed)
    (hl : net.Holds last) : net'.FoundedAt types last asked := by
  obtain ⟨steps, hfits, hasked⟩ := h
  refine ⟨steps, ?_, hasked⟩
  rw [E.trail W hl]
  exact hfits.imp fun _ _ hf => hf.extend E

theorem WellFormed.holds_parent (W : net.WellFormed) {n : NodeId} {node : BetaNode}
    (hn : net.node? n = some node) : net.Holds node.parent := fun p hp => by
  obtain ⟨-, above, habove, -⟩ := W.parent hn hp
  exact ⟨above, habove⟩

theorem WellFormed.holds_terminal (W : net.WellFormed) {τ : TerminalId} {terminal : Terminal}
    (hτ : net.terminal? τ = some terminal) : net.Holds terminal.node := fun n hn => by
  have hmem : τ ∈ net.terminalsOf n := W.terminals.2 ⟨terminal, hτ, hn⟩
  unfold terminalsOf at hmem
  cases hnode : net.node? n with
  | none =>
    rw [hnode] at hmem
    cases hmem
  | some node => exact ⟨node, rfl⟩

namespace Founded

/-- A network stays founded if the nodes and terminals that come are. -/
theorem extend (h : net.Founded types) (W : net.WellFormed) (E : net.Extends net')
    (hnodes : ∀ {n node'}, net'.node? n = some node' →
      (∃ node, net.node? n = some node ∧ node'.parent = node.parent ∧ node'.kind = node.kind) ∨
        net'.FoundedAt types node'.parent node'.kind.accesses)
    (hterminals : ∀ {τ terminal}, net'.terminal? τ = some terminal →
      net.terminal? τ = some terminal ∨
        net'.FoundedAt types terminal.node (scopeAccesses terminal.scope)) :
    net'.Founded types where
  nodes hn' := by
    rcases hnodes hn' with ⟨node, hn, hp, hk⟩ | hnew
    · rw [hp, hk]
      exact (h.nodes hn).extend E W (W.holds_parent hn)
    · exact hnew
  terminals hτ' := by
    rcases hterminals hτ' with hτ | hnew
    · exact (h.terminals hτ).extend E W (W.holds_terminal hτ)
    · exact hnew

theorem stores (h : net.Founded types) (W : net.WellFormed) (S : net.Stores net') :
    net'.Founded types := by
  refine h.extend W S.extends (fun {n node'} hn => .inl ⟨node', S.node? ▸ hn, rfl, rfl⟩)
    fun {τ terminal} hτ => .inl ?_
  rw [terminal?, ← S.terminals]
  exact hτ

/-- A step gets its node where the steps before it bring what it asks for. -/
theorem follow (h : net.Founded types) (W : net.WellFormed) {last : Option NodeId}
    (hl : net.Holds last) {steps : List Sketch}
    (hfits : List.Forall₂ net.Fits steps (net.trail last)) {sketch : Sketch}
    (hasked : ∀ a, ∀ x ∈ (sketch.kind a).accesses, x.AnsweredBy types steps) :
    (net.follow last sketch).2.Founded types := by
  rcases hsupplied : net.supplied sketch.supply? with ⟨a, net₁⟩
  obtain ⟨W₁, S₁, hsupplies⟩ := W.supplied hsupplied
  have hl₁ := S₁.extends.holds hl
  have hfeed : ∀ feed, (sketch.kind a).feed? = some feed →
      ∃ alpha, net₁.alpha? feed.alpha = some alpha := fun feed hf => by
    obtain ⟨rfl, supply, hsupply⟩ := Sketch.feed?_kind a hf
    obtain ⟨alpha, ha, -⟩ := hsupplies supply hsupply
    exact ⟨alpha, ha⟩
  have hat : net₁.FoundedAt types last (sketch.kind a).accesses :=
    FoundedAt.extend ⟨steps, hfits, hasked a⟩ S₁.extends W hl
  rcases hnode : net₁.nodeFor last (sketch.kind a) with ⟨n, net₂⟩
  have hfollow : net.follow last sketch = (n, net₂) := by rw [Network.follow, hsupplied, hnode]
  rw [hfollow]
  have h₁ := h.stores W S₁
  obtain ⟨E₂, hterminals, -⟩ := W₁.nodeFor_spec hfeed hnode
  refine h₁.extend W₁ E₂ (fun {k node'} hn' => ?_) fun {τ terminal} hτ => .inl ?_
  · rcases nodeFor_cases hfeed hnode with ⟨S₂, -⟩ | ⟨rfl, A, -⟩
    · exact .inl ⟨node', S₂.node? ▸ hn', rfl, rfl⟩
    · rcases A.old_or_new hn' with ⟨-, hp, hk, -⟩ | ⟨node, hn, hp, -, hk, -⟩
      · rw [hp, hk]
        exact .inr (hat.extend E₂ W₁ hl₁)
      · exact .inl ⟨node, hn, hp, hk⟩
  · rw [terminal?, ← hterminals]
    exact hτ

theorem followAll (h : net.Founded types) (W : net.WellFormed) {last : Option NodeId}
    (hl : net.Holds last) {steps more : List Sketch}
    (hfits : List.Forall₂ net.Fits steps (net.trail last))
    (hasked : ∀ done sketch rest, more = done ++ sketch :: rest → ∀ a,
      ∀ x ∈ (sketch.kind a).accesses, x.AnsweredBy types (steps ++ done)) :
    (net.followAll last more).2.Founded types := by
  induction more generalizing net last steps with
  | nil => exact h
  | cons sketch rest ih =>
    have hfirst := hasked [] sketch rest rfl
    rw [List.append_nil] at hfirst
    have L := W.follow hl sketch
    obtain ⟨kinds, htrail, hkinds⟩ := L.kinds
    have hfits' : List.Forall₂ (net.follow last sketch).2.Fits (steps ++ [sketch])
        ((net.follow last sketch).2.trail (some (net.follow last sketch).1)) := by
      rw [htrail]
      exact List.rel_append (hfits.imp fun _ _ hf => hf.extend L.extended) hkinds
    refine ih (h.follow W hl hfits hfirst) L.wellFormed L.holds hfits' ?_
    intro done other rest' hrest
    rw [List.append_assoc]
    exact hasked (sketch :: done) other rest' (by rw [hrest]; rfl)

/-- A branch asks for what its own steps bring. -/
theorem addBranch (h : net.Founded types) (N : types.Named) (W : net.WellFormed) {rule : Nat}
    {branch : List Element} (hb : net.addBranch types rule branch = .ok net') :
    net'.Founded types := by
  rw [addBranch_eq] at hb
  cases hsteps : sketches types [] 0 branch with
  | error d => rw [hsteps] at hb; cases hb
  | ok s =>
    obtain ⟨steps, scope⟩ := s
    rw [hsteps] at hb
    obtain rfl := Except.ok.inj hb
    dsimp only
    have hnone : net.Holds none := fun p hp => nomatch hp
    have L := W.followAll hnone steps
    obtain ⟨kinds, htrail, hkinds⟩ := L.kinds
    obtain ⟨hasked, hscope⟩ := sketches_grounded N (Scope.grounded_nil types []) hsteps
    rw [List.nil_append] at hscope
    have hall : (net.followAll none steps).2.Founded types := h.followAll W hnone .nil hasked
    generalize net.followAll none steps = followed at L htrail hkinds hall
    have E := followed.2.extends_addTerminal rule followed.1 scope
    refine hall.extend L.wellFormed E (fun {n node'} hn' => .inl ?_) fun {τ terminal} hτ => ?_
    · rw [(followed.2.ends_addTerminal rule followed.1 scope).node] at hn'
      obtain ⟨node, hn, rfl⟩ := Option.map_eq_some_iff.1 hn'
      refine ⟨node, hn, ?_⟩
      split <;> exact ⟨rfl, rfl⟩
    · rw [terminal?_addTerminal] at hτ
      split at hτ
      · cases hτ
        refine .inr (FoundedAt.extend ⟨steps, ?_, fun x hx => hscope.places hx⟩ E L.wellFormed L.holds)
        rw [htrail]
        exact hkinds
      · exact .inl hτ

end Founded

theorem inductive_founded (N : types.Named) : Inductive types fun net => net.Founded types where
  empty :=
    { nodes := fun hn => nomatch hn
      terminals := fun hτ => nomatch hτ }
  supplied _ W h := h.stores W (alphaFor_spec rfl).1
  indexField a field W h := h.stores W (stores_indexField _ a field)
  addBranch W h hb := h.addBranch N W hb
  finish W h := h.stores W (stores_finish _)

end Network

/-- What the nodes and terminals of a rule base ask for is brought by the nodes above them. -/
theorem Declarations.founded_build {declarations : Declarations} {base : RuleBase}
    (h : declarations.build = .ok base) : base.network.Founded base.types := by
  have N : base.types.Named := by
    rw [(build_eq h).2]
    exact declarations.named_typesOf
  exact network_induction h (Network.inductive_founded N)

/-- What is asked for at a node or a terminal is answered by the nodes above it. -/
theorem Network.Founded.answered {net : Network} {types : Types} (h : net.Founded types)
    (W : net.WellFormed) :
    (∀ {n node}, net.node? n = some node → ∀ x ∈ node.kind.accesses,
      net.Answered types node.parent x) ∧
    ∀ {τ terminal}, net.terminal? τ = some terminal → ∀ x ∈ scopeAccesses terminal.scope,
      net.Answered types terminal.node x := by
  refine ⟨fun hn x hx => ?_, fun hτ x hx => ?_⟩
  · obtain ⟨steps, hfits, hasked⟩ := h.nodes hn
    exact W.answered (W.holds_parent hn) hfits (hasked x hx)
  · obtain ⟨steps, hfits, hasked⟩ := h.terminals hτ
    exact W.answered (W.holds_terminal hτ) hfits (hasked x hx)

end RuleNet
