/-
  Branches in their places.

  Whatever a network holds already and whatever comes to it later, the nodes from the root to the end
  of a branch do what the steps of the branch ask for.

  * `Network.Extends`: nodes and terminals stay as they are while the network grows.
  * `Network.Fits`: a node does what a step asks for, fed by a memory that takes what it should.
  * `Network.WellFormed.followAll`, `Network.WellFormed.draws_addBranch`: a branch gets its place.
-/
import Mathlib.Data.List.Forall2
import RuleNet.Proofs.Network.Sketch

namespace RuleNet

theorem NodeKind.same_refl (kind : NodeKind) : kind.same kind = true := by
  cases kind <;> simp [NodeKind.same, Predicate.same]

namespace Network

variable {net net' net'' : Network}

/-! ## Growing -/

/-- What the nodes from the root to a place do. -/
def trail (net : Network) : Option NodeId → List NodeKind
  | some n => net.branchTo n
  | none => []

theorem branchOf_eq (net : Network) (terminal : Terminal) :
    net.branchOf terminal = net.trail terminal.node := by
  unfold branchOf trail
  cases terminal.node <;> rfl

/-- Memories, nodes and terminals stay as they are. -/
structure Extends (net net' : Network) : Prop where
  keeps : net.Keeps net'
  nodes : ∀ {k node}, net.node? k = some node → ∃ node', net'.node? k = some node' ∧
    node'.parent = node.parent ∧ node'.kind = node.kind
  terminals : ∀ {τ terminal}, net.terminal? τ = some terminal → net'.terminal? τ = some terminal

namespace Extends

theorem refl (net : Network) : net.Extends net := ⟨.refl net, fun hn => ⟨_, hn, rfl, rfl⟩, id⟩

theorem trans (h : net.Extends net') (h' : net'.Extends net'') : net.Extends net'' where
  keeps := h.keeps.trans h'.keeps
  nodes hn := by
    obtain ⟨node', hn', hp, hk⟩ := h.nodes hn
    obtain ⟨node'', hn'', hp', hk'⟩ := h'.nodes hn'
    exact ⟨node'', hn'', hp'.trans hp, hk'.trans hk⟩
  terminals ht := h'.terminals (h.terminals ht)

theorem holds (h : net.Extends net') {last : Option NodeId} (hl : net.Holds last) :
    net'.Holds last := fun p hp => by
  obtain ⟨node, hn⟩ := hl p hp
  obtain ⟨node', hn', -⟩ := h.nodes hn
  exact ⟨node', hn'⟩

/-- What the nodes above a node do stays the same. -/
theorem branchTo (h : net.Extends net') (W : net.WellFormed) {n : NodeId} {node : BetaNode}
    (hn : net.node? n = some node) : net'.branchTo n = net.branchTo n := by
  induction n using Nat.strongRecOn generalizing node with
  | ind n ih =>
    obtain ⟨node', hn', hp, hk⟩ := h.nodes hn
    cases hparent : node.parent with
    | none => rw [branchTo_top hn' (hp.trans hparent), branchTo_top hn hparent, hk]
    | some p =>
      obtain ⟨hlt, above, habove, -⟩ := W.parent hn hparent
      rw [branchTo_below hn' (hp.trans hparent) hlt, branchTo_below hn hparent hlt, hk,
        ih p hlt habove]

theorem trail (h : net.Extends net') (W : net.WellFormed) {last : Option NodeId}
    (hl : net.Holds last) : net'.trail last = net.trail last := by
  cases last with
  | none => rfl
  | some n =>
    obtain ⟨node, hn⟩ := hl n rfl
    exact h.branchTo W hn

end Extends

theorem Stores.extends (h : net.Stores net') : net.Extends net' where
  keeps := h.keeps
  nodes {k node} hn := ⟨node, by rw [h.node?]; exact hn, rfl, rfl⟩
  terminals {τ terminal} ht := by
    rw [terminal?, h.terminals]
    exact ht

/-! ## Places of steps -/

/-- A memory takes what was asked for. -/
def Supplies (net : Network) (a : AlphaId) (supply : Supply) : Prop :=
  ∃ alpha, net.alpha? a = some alpha ∧ alpha.type = supply.type ∧ alpha.window = supply.window ∧
    alpha.tests.Perm supply.tests

/-- A node does what a step asks for. -/
def Fits (net : Network) (sketch : Sketch) (kind : NodeKind) : Prop :=
  ∃ a, (sketch.kind a).same kind = true ∧
    ∀ supply, sketch.supply? = some supply → net.Supplies a supply

theorem Supplies.extend (h : net.Extends net') {a : AlphaId} {supply : Supply}
    (hs : net.Supplies a supply) : net'.Supplies a supply := by
  obtain ⟨alpha, ha, htype, hwindow, htests⟩ := hs
  obtain ⟨alpha', ha', hg⟩ := h.keeps a alpha ha
  exact ⟨alpha', ha', hg.type.trans htype, hg.window.trans hwindow, hg.tests ▸ htests⟩

theorem Fits.extend (h : net.Extends net') {sketch : Sketch} {kind : NodeKind}
    (hf : net.Fits sketch kind) : net'.Fits sketch kind := by
  obtain ⟨a, hsame, hs⟩ := hf
  exact ⟨a, hsame, fun supply hsupply => (hs supply hsupply).extend h⟩

/-- The memory for a supply. -/
theorem WellFormed.supplied (W : net.WellFormed) {supply? : Option Supply} {a : AlphaId}
    (h : net.supplied supply? = (a, net')) : net'.WellFormed ∧ net.Stores net' ∧
      ∀ supply, supply? = some supply → net'.Supplies a supply := by
  cases supply? with
  | none =>
    cases h
    exact ⟨W, .refl net, fun supply hs => by cases hs⟩
  | some supply =>
    obtain ⟨hs, -, alpha, ha, htype, hwindow, htests⟩ := alphaFor_spec h
    refine ⟨W.alphaFor h, hs, fun supply' hs' => ?_⟩
    obtain rfl := Option.some.inj hs'
    exact ⟨alpha, ha, htype, hwindow, htests⟩

/-- The node of a kind stands under its parent, and all else stays as it is. -/
theorem WellFormed.nodeFor_spec (W : net.WellFormed) {parent : Option NodeId} {kind : NodeKind}
    (hfeed : ∀ feed, kind.feed? = some feed → ∃ alpha, net.alpha? feed.alpha = some alpha)
    {n : NodeId} (h : net.nodeFor parent kind = (n, net')) :
    net.Extends net' ∧ net'.terminals = net.terminals ∧
    ∃ node, net'.node? n = some node ∧ node.parent = parent ∧ kind.same node.kind = true := by
  rcases nodeFor_cases hfeed h with ⟨S, -, hn, hsame⟩ | ⟨rfl, A, -⟩
  · obtain ⟨node, hnode, hp⟩ := W.mem_childrenUnder.1 hn
    rw [kind?_eq hnode] at hsame
    exact ⟨S.extends, S.terminals, node, S.node? ▸ hnode, hp, hsame⟩
  · obtain ⟨node, hnode, hp, hkind, -⟩ := A.new
    refine ⟨⟨A.keeps, fun hn => ?_, fun {τ terminal} hτ => ?_⟩, A.terminals, node, hnode, hp, ?_⟩
    · obtain ⟨node', hn', hp', -, hk', -⟩ := A.old hn
      exact ⟨node', hn', hp', hk'⟩
    · rw [terminal?, A.terminals]
      exact hτ
    · rw [hkind]
      exact kind.same_refl

/-- The network has been extended down to a place, where the nodes do some more. -/
structure Leads (net net' : Network) (last last' : Option NodeId) (steps : List Sketch) : Prop where
  wellFormed : net'.WellFormed
  extended : net.Extends net'
  terminals : net'.terminals = net.terminals
  holds : net'.Holds last'
  kinds : ∃ kinds, net'.trail last' = net.trail last ++ kinds ∧ List.Forall₂ net'.Fits steps kinds
  fresh : ∀ {n kind}, net'.kind? n = some kind →
    net.kind? n = some kind ∨ ∃ sketch ∈ steps, ∃ a, kind = sketch.kind a

/-- The node for a step. -/
theorem WellFormed.follow (W : net.WellFormed) {last : Option NodeId} (hl : net.Holds last)
    (sketch : Sketch) : net.Leads (net.follow last sketch).2 last
      (some (net.follow last sketch).1) [sketch] := by
  rcases hsupplied : net.supplied sketch.supply? with ⟨a, net₁⟩
  obtain ⟨W₁, S₁, hsupplies⟩ := W.supplied hsupplied
  have E₁ := S₁.extends
  have hfeed : ∀ feed, (sketch.kind a).feed? = some feed →
      ∃ alpha, net₁.alpha? feed.alpha = some alpha := fun feed hf => by
    obtain ⟨rfl, supply, hsupply⟩ := Sketch.feed?_kind a hf
    obtain ⟨alpha, ha, -⟩ := hsupplies supply hsupply
    exact ⟨alpha, ha⟩
  rcases hnode : net₁.nodeFor last (sketch.kind a) with ⟨n, net₂⟩
  have hfollow : net.follow last sketch = (n, net₂) := by rw [Network.follow, hsupplied, hnode]
  have G := W₁.nodeFor (E₁.holds hl) hfeed hnode
  have W₂ := G.wellFormed
  obtain ⟨E₂, hterminals₂, node, hn, hp, hsame⟩ := W₁.nodeFor_spec hfeed hnode
  rw [hfollow]
  refine ⟨W₂, E₁.trans E₂, hterminals₂.trans S₁.terminals, fun p hp' => ?_, ⟨[node.kind], ?_,
    .cons ⟨a, hsame, fun supply hs => (hsupplies supply hs).extend E₂⟩ .nil⟩, fun hk => ?_⟩
  · cases hp'
    exact ⟨node, hn⟩
  · have htrail : net₂.trail last = net.trail last := (E₁.trans E₂).trail W hl
    show net₂.branchTo n = _
    rw [← htrail]
    cases hlast : last with
    | none => exact branchTo_top hn (hp.trans hlast)
    | some p => exact branchTo_below hn (hp.trans hlast) (W₂.parent hn (hp.trans hlast)).1
  · rcases G.kinds hk with hk | rfl
    · rw [S₁.kind?] at hk
      exact .inl hk
    · exact .inr ⟨sketch, List.mem_singleton_self _, a, rfl⟩

theorem WellFormed.followAll (W : net.WellFormed) {last : Option NodeId} (hl : net.Holds last)
    (steps : List Sketch) : net.Leads (net.followAll last steps).2 last
      (net.followAll last steps).1 steps := by
  induction steps generalizing net last with
  | nil => exact ⟨W, .refl net, rfl, hl, ⟨[], (List.append_nil _).symm, .nil⟩, .inl⟩
  | cons sketch rest ih =>
    have L := W.follow hl sketch
    have L' := ih L.wellFormed L.holds
    obtain ⟨kinds, htrail, hfits⟩ := L.kinds
    obtain ⟨kinds', htrail', hfits'⟩ := L'.kinds
    refine ⟨L'.wellFormed, L.extended.trans L'.extended, L'.terminals.trans L.terminals, L'.holds,
      ⟨kinds ++ kinds', ?_, ?_⟩, fun hk => ?_⟩
    · rw [← List.append_assoc, ← htrail]
      exact htrail'
    · exact List.rel_append (hfits.imp fun _ _ hf => hf.extend L'.extended) hfits'
    · rcases L'.fresh hk with hk | ⟨other, hother, a, ha⟩
      · rcases L.fresh hk with hk | ⟨first, hfirst, a, ha⟩
        · exact .inl hk
        · exact .inr ⟨first, List.mem_cons.2 (.inl (List.mem_singleton.1 hfirst)), a, ha⟩
      · exact .inr ⟨other, List.mem_cons_of_mem _ hother, a, ha⟩

/-! ## Terminals -/

theorem terminal?_addTerminal (net : Network) (rule : Nat) (last : Option NodeId) (scope : Scope)
    (τ : TerminalId) : (net.addTerminal rule last scope).terminal? τ =
      if τ = net.terminals.size then some ⟨rule, last, scope.places⟩ else net.terminal? τ := by
  cases last <;> exact Array.getElem?_push

theorem extends_addTerminal (net : Network) (rule : Nat) (last : Option NodeId) (scope : Scope) :
    net.Extends (net.addTerminal rule last scope) := by
  have E := net.ends_addTerminal rule last scope
  refine ⟨fun a alpha ha => ⟨alpha, ?_, .refl alpha⟩, fun {k node} hn => ?_,
    fun {τ terminal} hτ => ?_⟩
  · rw [alpha?, E.alphas]
    exact ha
  · rw [E.node, hn]
    refine ⟨_, rfl, ?_⟩
    split <;> exact ⟨rfl, rfl⟩
  · rw [terminal?_addTerminal, if_neg, hτ]
    rintro rfl
    rw [terminal?, Array.getElem?_eq_none (Nat.le_refl _)] at hτ
    cases hτ

/-- The nodes of a terminal's branch do what the branch asks for, and its variables are those of the
    branch. -/
structure Draws (net : Network) (types : Types) (branch : List Element) (terminal : Terminal) :
    Prop where
  holds : net.Holds terminal.node
  drawn : ∃ steps scope, sketches types [] 0 branch = .ok (steps, scope) ∧
    terminal.scope = scope.places ∧ List.Forall₂ net.Fits steps (net.branchOf terminal)

theorem Draws.extend (h : net.Extends net') (W : net.WellFormed) {types : Types}
    {branch : List Element} {terminal : Terminal} (hd : net.Draws types branch terminal) :
    net'.Draws types branch terminal := by
  obtain ⟨steps, scope, hsteps, hscope, hfits⟩ := hd.drawn
  refine ⟨h.holds hd.holds, steps, scope, hsteps, hscope, ?_⟩
  rw [branchOf_eq, h.trail W hd.holds, ← branchOf_eq]
  exact hfits.imp fun _ _ hf => hf.extend h

/-- A branch gets its place. -/
theorem WellFormed.draws_addBranch (W : net.WellFormed) {types : Types} {rule : Nat}
    {branch : List Element} (h : net.addBranch types rule branch = .ok net') :
    net'.WellFormed ∧ net.Extends net' ∧ (∃ terminal : Terminal, terminal.rule = rule ∧
      net'.Draws types branch terminal ∧
      ∀ τ, net'.terminal? τ = if τ = net.terminals.size then some terminal else net.terminal? τ) ∧
    ∀ {n p places}, net'.kind? n = some (.predicate p places) →
      net.kind? n = some (.predicate p places) ∨ .predicate p ∈ branch := by
  rw [addBranch_eq] at h
  cases hsteps : sketches types [] 0 branch with
  | error d => rw [hsteps] at h; cases h
  | ok s =>
    obtain ⟨steps, scope⟩ := s
    rw [hsteps] at h
    replace h := Except.ok.inj h
    have L := @WellFormed.followAll net W none (fun p hp => nomatch hp) steps
    rcases hfollow : net.followAll none steps with ⟨last, net₁⟩
    dsimp only at h
    rw [hfollow] at h L
    dsimp only at h
    subst h
    obtain ⟨kinds, htrail, hfits⟩ := L.kinds
    have E := net₁.extends_addTerminal rule last scope
    refine ⟨L.wellFormed.addTerminal L.holds rule scope, L.extended.trans E,
      ⟨⟨rule, last, scope.places⟩, rfl, ⟨E.holds L.holds, steps, scope, hsteps, rfl, ?_⟩,
        fun τ => ?_⟩, fun hk => ?_⟩
    · rw [branchOf_eq, E.trail L.wellFormed L.holds, htrail]
      exact hfits.imp fun _ _ hf => hf.extend E
    · rw [terminal?_addTerminal, terminal?, L.terminals]
      rfl
    · rw [(net₁.ends_addTerminal rule last scope).kind?] at hk
      rcases L.fresh hk with hk | ⟨sketch, hsketch, a, ha⟩
      · exact .inl hk
      · cases sketch <;> cases ha
        exact .inr (predicate_of_sketches hsteps hsketch)

end Network

end RuleNet
