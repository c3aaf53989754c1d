/-
  Memories and nodes are made once.

  What a step asks for is looked up before it is made, so branches that begin alike share their first
  nodes, and the steps of a branch lead to one place.

  * `Network.Single`: no two memories take the same, and no two nodes do the same after one node.
  * `Declarations.single_build`: so it is in the network of a rule base.
  * `Network.Single.place_unique`: steps lead to one place.
  * `Network.Stands`: the node for an element of a branch.
-/
import RuleNet.Proofs.Network.Answered

namespace RuleNet

namespace NodeKind

theorem same_symm {kind kind' : NodeKind} (h : kind.same kind' = true) : kind'.same kind = true := by
  cases kind <;> cases kind' <;>
    simp only [same, Predicate.same, decide_eq_true_eq, Bool.and_eq_true, beq_iff_eq,
      Bool.false_eq_true] at h ⊢
  all_goals simp [h]

theorem same_trans {kind kind' kind'' : NodeKind} (h : kind.same kind' = true)
    (h' : kind'.same kind'' = true) : kind.same kind'' = true := by
  cases kind <;> cases kind' <;> simp only [same, Bool.false_eq_true] at h <;> cases kind'' <;>
    simp only [same, Predicate.same, decide_eq_true_eq, Bool.and_eq_true, beq_iff_eq,
      Bool.false_eq_true] at h h' ⊢
  all_goals simp [h, h']

end NodeKind

namespace Network

variable {net net' : Network} {types : Types}

/-! ## Made once -/

/-- No two memories take the same, and no two nodes do the same after one node. -/
structure Single (net : Network) : Prop where
  alphas : ∀ {a b alpha beta}, net.alpha? a = some alpha → net.alpha? b = some beta →
    alpha.type = beta.type → alpha.window = beta.window → alpha.tests.Perm beta.tests → a = b
  nodes : ∀ {m n x y}, net.node? m = some x → net.node? n = some y → x.parent = y.parent →
    x.kind.same y.kind = true → m = n

theorem size_nodeFor (net : Network) (parent : Option NodeId) (kind : NodeKind) :
    (net.nodeFor parent kind).2.alphas.size = net.alphas.size := by
  have hconnect : ∀ (feed : Feed) (n : NodeId), (net.connect feed n).alphas.size = net.alphas.size :=
    fun feed n => by
      unfold connect
      split
      · rw [size_indexField]
        exact Array.size_modify
      · exact Array.size_modify
  unfold nodeFor
  split
  · rfl
  · dsimp only
    rw [alphas_attach]
    split
    · exact hconnect _ _
    · rfl

namespace Single

/-- Memories that stay what they are, without new ones, are still made once. -/
theorem alphas_of_keeps (h : net.Single) (K : net.Keeps net')
    (hsize : net'.alphas.size = net.alphas.size) {a b : AlphaId} {alpha beta : AlphaNode}
    (ha : net'.alpha? a = some alpha) (hb : net'.alpha? b = some beta)
    (htype : alpha.type = beta.type) (hwindow : alpha.window = beta.window)
    (htests : alpha.tests.Perm beta.tests) : a = b := by
  have hold : ∀ {c gamma}, net'.alpha? c = some gamma →
      ∃ old, net.alpha? c = some old ∧ old.Grows gamma := fun {c gamma} hc => by
    obtain ⟨old, hold⟩ := alpha?_of_lt (hsize ▸ (Array.getElem?_eq_some_iff.1 hc).1)
    obtain ⟨gamma', hc', hg⟩ := K c old hold
    obtain rfl := Option.some.inj (hc.symm.trans hc')
    exact ⟨old, hold, hg⟩
  obtain ⟨old, hold₁, hg⟩ := hold ha
  obtain ⟨old', hold₂, hg'⟩ := hold hb
  refine h.alphas hold₁ hold₂ ?_ ?_ ?_
  · rw [← hg.type, htype, hg'.type]
  · rw [← hg.window, hwindow, hg'.window]
  · rw [← hg.tests, ← hg'.tests]
    exact htests

theorem stores (h : net.Single) (S : net.Stores net') (hsize : net'.alphas.size = net.alphas.size) :
    net'.Single where
  alphas := h.alphas_of_keeps S.keeps hsize
  nodes := by rw [S.node?]; exact h.nodes

/-- A memory is made only if there is none that takes the same. -/
theorem supplied (h : net.Single) (supply? : Option Supply) : (net.supplied supply?).2.Single := by
  cases supply? with
  | none => exact h
  | some supply =>
    simp only [Network.supplied, alphaFor]
    split
    · exact h
    · next hnone =>
      have hfree : ∀ {a alpha}, net.alpha? a = some alpha → alpha.type = supply.type →
          alpha.window = supply.window → alpha.tests.Perm supply.tests → False := by
        intro a alpha ha htype hwindow htests
        have hno := Array.findIdx?_eq_none_iff.1 hnone alpha (Array.mem_of_getElem? ha)
        simp [htype, hwindow, List.isPerm_iff.2 htests] at hno
      refine ⟨fun {a b alpha beta} ha hb htype hwindow htests => ?_, h.nodes⟩
      simp only [alpha?, Array.getElem?_push] at ha hb
      split at ha
      · next hsize =>
        cases ha
        split at hb
        · next hsize' => rw [hsize, hsize']
        · exact (hfree hb htype.symm hwindow.symm htests.symm).elim
      · split at hb
        · cases hb
          exact (hfree ha htype hwindow htests).elim
        · exact h.alphas ha hb htype hwindow htests

/-- A node is made only if there is none that does the same after the same node. -/
theorem nodeFor (h : net.Single) (W : net.WellFormed) {parent : Option NodeId} {kind : NodeKind}
    (hfeed : ∀ feed, kind.feed? = some feed → ∃ alpha, net.alpha? feed.alpha = some alpha)
    {n : NodeId} (hn : net.nodeFor parent kind = (n, net')) : net'.Single := by
  have hsize : net'.alphas.size = net.alphas.size := by
    have hsize := net.size_nodeFor parent kind
    rwa [hn] at hsize
  rcases nodeFor_cases hfeed hn with ⟨S, -⟩ | ⟨-, A, hfree⟩
  · exact h.stores S hsize
  · have hnot : ∀ {k x}, net.node? k = some x → x.parent = parent → kind.same x.kind = false :=
      fun {k x} hk hp => by
        have hno := hfree k (W.mem_childrenUnder.2 ⟨x, hk, hp⟩)
        rwa [kind?_eq hk] at hno
    refine ⟨h.alphas_of_keeps A.keeps hsize, fun {m k x y} hm hk hp hsame => ?_⟩
    rcases A.old_or_new hm with ⟨rfl, hxp, hxk, -⟩ | ⟨x', hm', hxp, -, hxk, -⟩
    · rcases A.old_or_new hk with ⟨rfl, -⟩ | ⟨y', hk', hyp, -, hyk, -⟩
      · rfl
      · have hno := hnot hk' (hyp.symm.trans (hp.symm.trans hxp))
        rw [← hyk, ← hxk, hsame] at hno
        cases hno
    · rcases A.old_or_new hk with ⟨rfl, hyp, hyk, -⟩ | ⟨y', hk', hyp, -, hyk, -⟩
      · have hno := hnot hm' (hxp.symm.trans (hp.trans hyp))
        rw [← hyk, ← hxk, NodeKind.same_symm hsame] at hno
        cases hno
      · exact h.nodes hm' hk' (hxp.symm.trans (hp.trans hyp)) (hxk ▸ hyk ▸ hsame)

theorem follow (h : net.Single) (W : net.WellFormed) (last : Option NodeId) (sketch : Sketch) :
    (net.follow last sketch).2.Single := by
  rcases hsupplied : net.supplied sketch.supply? with ⟨a, net₁⟩
  obtain ⟨W₁, -, hsupplies⟩ := W.supplied hsupplied
  have h₁ : net₁.Single := by
    have h₁ := h.supplied sketch.supply?
    rwa [hsupplied] at h₁
  rcases hnode : net₁.nodeFor last (sketch.kind a) with ⟨n, net₂⟩
  have hfollow : net.follow last sketch = (n, net₂) := by rw [Network.follow, hsupplied, hnode]
  rw [hfollow]
  refine h₁.nodeFor W₁ (fun feed hf => ?_) hnode
  obtain ⟨rfl, supply, hsupply⟩ := Sketch.feed?_kind a hf
  obtain ⟨alpha, ha, -⟩ := hsupplies supply hsupply
  exact ⟨alpha, ha⟩

theorem followAll (h : net.Single) (W : net.WellFormed) {last : Option NodeId}
    (hl : net.Holds last) (steps : List Sketch) : (net.followAll last steps).2.Single := by
  induction steps generalizing net last with
  | nil => exact h
  | cons sketch rest ih =>
    have L := W.follow hl sketch
    exact ih (h.follow W last sketch) L.wellFormed L.holds

theorem addBranch (h : net.Single) (W : net.WellFormed) {rule : Nat} {branch : List Element}
    (hb : net.addBranch types rule branch = .ok net') : net'.Single := by
  rw [addBranch_eq] at hb
  cases hsteps : sketches types [] 0 branch with
  | error d => rw [hsteps] at hb; cases hb
  | ok s =>
    rw [hsteps] at hb
    obtain rfl := Except.ok.inj hb
    have hall := h.followAll W (fun p hp => nomatch hp : net.Holds none) s.1
    have E := (net.followAll none s.1).2.ends_addTerminal rule (net.followAll none s.1).1 s.2
    have hold : ∀ {k node'}, ((net.followAll none s.1).2.addTerminal rule (net.followAll none s.1).1
        s.2).node? k = some node' → ∃ node, (net.followAll none s.1).2.node? k = some node ∧
          node'.parent = node.parent ∧ node'.kind = node.kind := fun {k node'} hn' => by
      rw [E.node] at hn'
      obtain ⟨node, hn, rfl⟩ := Option.map_eq_some_iff.1 hn'
      refine ⟨node, hn, ?_⟩
      split <;> exact ⟨rfl, rfl⟩
    refine ⟨fun {a b alpha beta} ha hb => ?_, fun {m n x y} hm hn hp hsame => ?_⟩
    · rw [alpha?, E.alphas] at ha hb
      exact hall.alphas ha hb
    · obtain ⟨x', hm', hxp, hxk⟩ := hold hm
      obtain ⟨y', hn', hyp, hyk⟩ := hold hn
      exact hall.nodes hm' hn' (hxp.symm.trans (hp.trans hyp)) (hxk ▸ hyk ▸ hsame)

end Single

theorem inductive_single (types : Types) : Inductive types Single where
  empty :=
    { alphas := fun ha => nomatch ha
      nodes := fun hn => nomatch hn }
  supplied supply _ h := h.supplied (some supply)
  indexField a field _ h := h.stores (stores_indexField _ a field) (size_indexField _ a field)
  addBranch W h hb := h.addBranch W hb
  finish {net} _ h := h.stores (stores_finish net) Array.size_map

end Network

/-- In the network of a rule base, memories and nodes are made once. -/
theorem Declarations.single_build {declarations : Declarations} {base : RuleBase}
    (h : declarations.build = .ok base) : base.network.Single :=
  network_induction h (Network.inductive_single base.types)

namespace Network

variable {net : Network} {types : Types}

/-! ## One place -/

theorem forall₂_concat {α β : Type} {R : α → β → Prop} {xs : List α} {ys : List β} {y : β}
    (h : List.Forall₂ R xs (ys ++ [y])) :
    ∃ before x, xs = before ++ [x] ∧ List.Forall₂ R before ys ∧ R x y := by
  induction ys generalizing xs with
  | nil =>
    cases h with
    | cons hxy hrest =>
      cases hrest
      exact ⟨[], _, rfl, .nil, hxy⟩
  | cons first ys ih =>
    cases h with
    | cons hfirst hrest =>
      obtain ⟨before, x, rfl, hbefore, hxy⟩ := ih hrest
      exact ⟨_ :: before, x, rfl, .cons hfirst hbefore, hxy⟩

/-- Nodes that do what one step asks for do the same. -/
theorem Single.same_of_fits (h : net.Single) {sketch : Sketch} {kind kind' : NodeKind}
    (hf : net.Fits sketch kind) (hf' : net.Fits sketch kind') : kind.same kind' = true := by
  obtain ⟨a, hsame, hs⟩ := hf
  obtain ⟨b, hsame', hs'⟩ := hf'
  have hkinds : sketch.kind a = sketch.kind b := by
    cases hsupply : sketch.supply? with
    | none => cases sketch <;> cases hsupply; rfl
    | some supply =>
      obtain ⟨alpha, ha, htype, hwindow, htests⟩ := hs supply hsupply
      obtain ⟨beta, hb, htype', hwindow', htests'⟩ := hs' supply hsupply
      rw [h.alphas ha hb (htype.trans htype'.symm) (hwindow.trans hwindow'.symm)
        (htests.trans htests'.symm)]
  rw [hkinds] at hsame
  exact NodeKind.same_trans (NodeKind.same_symm hsame) hsame'

theorem WellFormed.branchTo_eq (W : net.WellFormed) {n : NodeId} {node : BetaNode}
    (hn : net.node? n = some node) : net.branchTo n = net.trail node.parent ++ [node.kind] := by
  cases hparent : node.parent with
  | none => exact branchTo_top hn hparent
  | some p => exact branchTo_below hn hparent (W.parent hn hparent).1

/-- Only the root has no nodes above it. -/
theorem WellFormed.eq_none_of_trail (W : net.WellFormed) {last : Option NodeId}
    (hl : net.Holds last) (h : net.trail last = []) : last = none := by
  cases last with
  | none => rfl
  | some n =>
    obtain ⟨node, hn⟩ := hl n rfl
    cases (List.append_eq_nil_iff.1 ((W.branchTo_eq hn).symm.trans h)).2

/-- The last of the steps to a node is its own, and the others lead to where it stands. -/
theorem WellFormed.last_of_fits (W : net.WellFormed) {n : NodeId} {node : BetaNode}
    (hn : net.node? n = some node) {steps : List Sketch}
    (hf : List.Forall₂ net.Fits steps (net.branchTo n)) : ∃ before sketch,
      steps = before ++ [sketch] ∧ List.Forall₂ net.Fits before (net.trail node.parent) ∧
        net.Fits sketch node.kind := by
  rw [W.branchTo_eq hn] at hf
  exact forall₂_concat hf

/-- Steps lead to one place. -/
theorem Single.place_unique (h : net.Single) (W : net.WellFormed) {steps : List Sketch}
    {last last' : Option NodeId} (hl : net.Holds last) (hl' : net.Holds last')
    (hf : List.Forall₂ net.Fits steps (net.trail last))
    (hf' : List.Forall₂ net.Fits steps (net.trail last')) : last = last' := by
  induction hsize : steps.length generalizing steps last last' with
  | zero =>
    obtain rfl := List.length_eq_zero_iff.1 hsize
    rw [W.eq_none_of_trail hl (List.forall₂_nil_left_iff.1 hf),
      W.eq_none_of_trail hl' (List.forall₂_nil_left_iff.1 hf')]
  | succ size ih =>
    have hsome : ∀ {last : Option NodeId}, net.Holds last →
        List.Forall₂ net.Fits steps (net.trail last) → ∃ n node before sketch, last = some n ∧
          net.node? n = some node ∧ steps = before ++ [sketch] ∧
          List.Forall₂ net.Fits before (net.trail node.parent) ∧ net.Fits sketch node.kind :=
      fun {last} hl hf => by
        cases last with
        | none =>
          cases hf
          cases hsize
        | some n =>
          obtain ⟨node, hn⟩ := hl n rfl
          obtain ⟨before, sketch, hsteps, hbefore, hlast⟩ := W.last_of_fits hn hf
          exact ⟨n, node, before, sketch, rfl, hn, hsteps, hbefore, hlast⟩
    obtain ⟨n, node, before, sketch, rfl, hn, rfl, hbefore, hlast⟩ := hsome hl hf
    obtain ⟨n', node', before', sketch', rfl, hn', heq, hbefore', hlast'⟩ := hsome hl' hf'
    obtain ⟨rfl, hsketch⟩ := List.append_inj' heq rfl
    obtain rfl := (List.cons.inj hsketch).1
    rw [List.length_append] at hsize
    have hparent := ih (W.holds_parent hn) (W.holds_parent hn') hbefore hbefore'
      (Nat.succ.inj hsize)
    rw [h.nodes hn hn' hparent (h.same_of_fits hlast hlast')]

/-! ## Elements of branches -/

/-- The node of a rule where an element is met after others: it stands at or above a terminal of the
    rule, and the nodes down to it do what the elements ask for. -/
structure Stands (net : Network) (types : Types) (rule : Nat) (before : List Element) (e : Element)
    (n : NodeId) : Prop where
  above : ∃ τ terminal node, net.terminal? τ = some terminal ∧ terminal.rule = rule ∧
    net.Over terminal.node n node
  drawn : ∃ steps scope, sketches types [] 0 (before ++ [e]) = .ok (steps, scope) ∧
    List.Forall₂ net.Fits steps (net.branchTo n)

theorem Stands.node {rule : Nat} {before : List Element} {e : Element} {n : NodeId}
    (h : net.Stands types rule before e n) : ∃ node, net.node? n = some node := by
  obtain ⟨⟨τ, terminal, node, -, -, hover⟩, -⟩ := h
  exact ⟨node, hover.node⟩

/-- Every element of a branch has its node. -/
theorem Carries.stands {P : Nat → List Element → Prop} (h : net.Carries types P) {rule : Nat}
    {before after : List Element} {e : Element} (hbranch : P rule (before ++ e :: after)) :
    ∃ n, net.Stands types rule before e n := by
  obtain ⟨τ, terminal, hτ, hrule, hholds, steps, scope, hsteps, -, hfits⟩ := h.complete hbranch
  rw [branchOf_eq] at hfits
  rw [← List.singleton_append, ← List.append_assoc] at hsteps
  obtain ⟨first, rest, scope₁, hfirst, -, rfl, hlength⟩ := sketches_append hsteps
  rw [List.length_append, List.length_singleton] at hlength
  have hlt : before.length < (first ++ rest).length := by
    rw [List.length_append, hlength]
    omega
  obtain ⟨kind, hkind, -⟩ := forall₂_getElem? hfits (List.getElem?_eq_getElem hlt)
  obtain ⟨n, node, hover, -, -, hbranchTo⟩ := h.wellFormed.trail_over hholds hkind
  refine ⟨n, ⟨τ, terminal, node, hτ, hrule, hover⟩, first, scope₁, hfirst, ?_⟩
  have htake := List.forall₂_take (before.length + 1) hfits
  rwa [List.take_append_of_le_length (Nat.le_of_eq hlength.symm), ← hlength, List.take_length,
    hlength, ← hbranchTo] at htake

/-- The nodes above the node of an element do what the elements before it ask for. -/
theorem Stands.step {rule : Nat} {before : List Element} {e : Element} {n : NodeId}
    (W : net.WellFormed) (h : net.Stands types rule before e n) :
    ∃ node steps scope sketch scope₁, net.node? n = some node ∧
      sketches types [] 0 before = .ok (steps, scope) ∧
      e.sketch types scope before.length = .ok (sketch, scope₁) ∧
      List.Forall₂ net.Fits steps (net.trail node.parent) ∧ net.Fits sketch node.kind := by
  obtain ⟨⟨τ, terminal, node, -, -, hover⟩, steps, scope', hsteps, hfits⟩ := h
  obtain ⟨first, rest, scope, hfirst, hrest, rfl, -⟩ := sketches_append hsteps
  rw [Nat.zero_add] at hrest
  obtain ⟨⟨sketch, scope₁⟩, hsketch, hrest⟩ := ok_of_bind hrest
  obtain ⟨others, hothers, hrest⟩ := ok_of_bind hrest
  cases hothers
  cases hrest
  obtain ⟨before', sketch', heq, hbefore, hlast⟩ := W.last_of_fits hover.node hfits
  obtain ⟨rfl, hlasts⟩ := List.append_inj' heq rfl
  obtain rfl := (List.cons.inj hlasts).1
  exact ⟨node, first, scope, sketch, _, hover.node, hfirst, hsketch, hbefore, hlast⟩

/-- Elements that are met after the same others have their nodes below one place. -/
theorem Stands.beside {rule rule' : Nat} {before : List Element} {e e' : Element} {n n' : NodeId}
    (W : net.WellFormed) (S : net.Single) (h : net.Stands types rule before e n)
    (h' : net.Stands types rule' before e' n') :
    ∃ node node' scope sketch sketch' scope₁ scope₂, net.node? n = some node ∧
      net.node? n' = some node' ∧ node'.parent = node.parent ∧
      e.sketch types scope before.length = .ok (sketch, scope₁) ∧
      e'.sketch types scope before.length = .ok (sketch', scope₂) ∧
      net.Fits sketch node.kind ∧ net.Fits sketch' node'.kind := by
  obtain ⟨node, steps, scope, sketch, scope₁, hn, hsteps, hsketch, hbefore, hfits⟩ := h.step W
  obtain ⟨node', steps', scope', sketch', scope₂, hn', hsteps', hsketch', hbefore', hfits'⟩ :=
    h'.step W
  cases hsteps.symm.trans hsteps'
  exact ⟨node, node', scope, sketch, sketch', scope₁, scope₂, hn, hn',
    S.place_unique W (W.holds_parent hn') (W.holds_parent hn) hbefore' hbefore, hsketch, hsketch',
    hfits, hfits'⟩

end Network

end RuleNet
