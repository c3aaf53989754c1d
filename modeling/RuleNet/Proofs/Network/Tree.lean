/-
  Networks as trees of nodes.

  * `Network.WellFormed`: every list that the network keeps beside its nodes says what the nodes
    say: children and parents, what each memory feeds, where the branches end.
  * `Network.Within`: a node and the nodes below it. What happens at a node changes nothing outside
    of these.
  * `Network.branchTo`: what the nodes from the root to a node do.
-/
import RuleNet.Network.Graph

namespace RuleNet.Network

/-- The lists of a network agree with its nodes. -/
structure WellFormed (net : Network) : Prop where
  parent : ∀ {n node p}, net.node? n = some node → node.parent = some p →
    p < n ∧ ∃ above, net.node? p = some above ∧ node.depth = above.depth + 1
  top : ∀ {n node}, net.node? n = some node → node.parent = none → node.depth = 1
  children : ∀ {p c}, c ∈ net.childrenOf p ↔
    ∃ node, net.node? c = some node ∧ node.parent = some p
  rootChildren : ∀ {c}, c ∈ net.rootChildren ↔ ∃ node, net.node? c = some node ∧ node.parent = none
  nodup_children : ∀ p, (net.childrenOf p).Nodup
  nodup_rootChildren : net.rootChildren.Nodup
  feed : ∀ {n kind feed}, net.kind? n = some kind → kind.feed? = some feed →
    ∃ alpha, net.alpha? feed.alpha = some alpha ∧
      ∀ index, feed.index = some index → index.field ∈ alpha.indexedFields
  successors : ∀ {a n}, n ∈ net.successorsOf a ↔
    ∃ kind feed, net.kind? n = some kind ∧ kind.feed? = some feed ∧ feed.alpha = a
  nodup_successors : ∀ a, (net.successorsOf a).Nodup
  terminals : ∀ {n τ}, τ ∈ net.terminalsOf n ↔
    ∃ terminal, net.terminal? τ = some terminal ∧ terminal.node = some n
  rootTerminals : ∀ {τ}, τ ∈ net.rootTerminals ↔
    ∃ terminal, net.terminal? τ = some terminal ∧ terminal.node = none
  nodup_terminals : ∀ n, (net.terminalsOf n).Nodup
  nodup_rootTerminals : net.rootTerminals.Nodup

/-- A node and the nodes below it. -/
inductive Within (net : Network) (n : NodeId) : NodeId → Prop
  | self : Within net n n
  | step {p c node} (h : net.node? c = some node) (hp : node.parent = some p)
      (hw : Within net n p) : Within net n c

/-- The nodes below a node. -/
def Beneath (net : Network) (n c : NodeId) : Prop :=
  ∃ node p, net.node? c = some node ∧ node.parent = some p ∧ net.Within n p

/-- Whether a memory feeds a node. -/
def Feeds (net : Network) (a : AlphaId) (n : NodeId) : Prop :=
  ∃ kind feed, net.kind? n = some kind ∧ kind.feed? = some feed ∧ feed.alpha = a

/-- What the nodes from the root down to a node do. -/
def branchTo (net : Network) (n : NodeId) : List NodeKind := match net.node? n with
  | none => []
  | some node => (match node.parent with
    | some p => if p < n then net.branchTo p else []
    | none => []) ++ [node.kind]
termination_by n

/-- What the nodes of a terminal's branch do, from the root. -/
def branchOf (net : Network) (terminal : Terminal) : List NodeKind := match terminal.node with
  | some n => net.branchTo n
  | none => []

/-! ## Lookups -/

variable {net : Network}

theorem kind?_eq {n : NodeId} {node : BetaNode} (h : net.node? n = some node) :
    net.kind? n = some node.kind := by rw [kind?, h]; rfl

theorem kind?_eq_some {n : NodeId} {kind : NodeKind} :
    net.kind? n = some kind ↔ ∃ node, net.node? n = some node ∧ node.kind = kind :=
  Option.map_eq_some_iff

theorem depthOf_eq {n : NodeId} {node : BetaNode} (h : net.node? n = some node) :
    net.depthOf n = node.depth := by rw [depthOf, h]; rfl

theorem lt_size {n : NodeId} {node : BetaNode} (h : net.node? n = some node) :
    n < net.nodes.size := by
  obtain ⟨hlt, -⟩ := Array.getElem?_eq_some_iff.1 h
  exact hlt

/-- A node is fed by one memory. -/
theorem Feeds.unique {a b : AlphaId} {n : NodeId} (ha : net.Feeds a n) (hb : net.Feeds b n) :
    a = b := by
  obtain ⟨kind, feed, hk, hf, rfl⟩ := ha
  obtain ⟨kind', feed', hk', hf', rfl⟩ := hb
  obtain rfl := Option.some.inj (hk.symm.trans hk')
  obtain rfl := Option.some.inj (hf.symm.trans hf')
  rfl

theorem branchTo_top {n : NodeId} {node : BetaNode} (h : net.node? n = some node)
    (hp : node.parent = none) : net.branchTo n = [node.kind] := by
  rw [branchTo, h]
  simp only [hp, List.nil_append]

theorem branchTo_below {n p : NodeId} {node : BetaNode} (h : net.node? n = some node)
    (hp : node.parent = some p) (hlt : p < n) : net.branchTo n = net.branchTo p ++ [node.kind] := by
  rw [branchTo, h]
  simp only [hp, if_pos hlt]

/-- What is done on the way to a node is done by nodes. -/
theorem kind?_of_mem_branchTo {n : NodeId} {kind : NodeKind} (h : kind ∈ net.branchTo n) :
    ∃ k, net.kind? k = some kind := by
  induction n using Nat.strongRecOn with
  | ind n ih =>
    rw [branchTo] at h
    split at h
    · cases h
    · next node hn =>
      rcases List.mem_append.1 h with h | h
      · split at h
        · next p hp =>
          split at h
          · next hlt => exact ih p hlt h
          · cases h
        · cases h
      · obtain rfl := List.mem_singleton.1 h
        exact ⟨n, kind?_eq hn⟩

theorem kind?_of_mem_branchOf {terminal : Terminal} {kind : NodeKind}
    (h : kind ∈ net.branchOf terminal) : ∃ k, net.kind? k = some kind := by
  unfold branchOf at h
  split at h
  · exact kind?_of_mem_branchTo h
  · cases h

/-! ## Below a node -/

theorem Within.trans {a b c : NodeId} (hab : net.Within a b) (hbc : net.Within b c) :
    net.Within a c := by
  induction hbc with
  | self => exact hab
  | step h hp _ ih => exact .step h hp ih

theorem Beneath.within {n c : NodeId} (h : net.Beneath n c) : net.Within n c := by
  obtain ⟨node, p, hnode, hp, hw⟩ := h
  exact .step hnode hp hw

theorem Within.beneath {a b c : NodeId} (hab : net.Within a b) (hbc : net.Beneath b c) :
    net.Beneath a c := by
  obtain ⟨node, p, hnode, hp, hw⟩ := hbc
  exact ⟨node, p, hnode, hp, hab.trans hw⟩

theorem Beneath.trans_within {a b c : NodeId} (hab : net.Beneath a b) (hbc : net.Within b c) :
    net.Beneath a c := by
  cases hbc with
  | self => exact hab
  | step h hp hw => exact ⟨_, _, h, hp, hab.within.trans hw⟩

theorem beneath_child {n c : NodeId} {node : BetaNode} (h : net.node? c = some node)
    (hp : node.parent = some n) : net.Beneath n c := ⟨node, n, h, hp, .self⟩

namespace WellFormed
variable (W : net.WellFormed)
include W

theorem beneath_of_mem_childrenOf {n c : NodeId} (hc : c ∈ net.childrenOf n) : net.Beneath n c := by
  obtain ⟨node, hnode, hparent⟩ := W.children.1 hc
  exact beneath_child hnode hparent

theorem le_of_within {n c : NodeId} (h : net.Within n c) : n ≤ c := by
  induction h with
  | self => exact Nat.le_refl n
  | step h hp _ ih => exact Nat.le_trans ih (Nat.le_of_lt (W.parent h hp).1)

/-- A node above another one is not below it. -/
theorem not_within_parent {p c : NodeId} {node : BetaNode} (h : net.node? c = some node)
    (hp : node.parent = some p) : ¬ net.Within c p := fun hw =>
  absurd (W.le_of_within hw) (Nat.not_le.2 (W.parent h hp).1)

theorem lt_of_beneath {n c : NodeId} (h : net.Beneath n c) : n < c := by
  obtain ⟨node, p, hnode, hp, hw⟩ := h
  exact Nat.lt_of_le_of_lt (W.le_of_within hw) (W.parent hnode hp).1

/-- Nodes below a node are deeper. -/
theorem depth_lt_of_beneath {n c : NodeId} (h : net.Beneath n c) :
    net.depthOf n < net.depthOf c := by
  have hstep : ∀ {c p node}, net.node? c = some node → node.parent = some p →
      net.depthOf p < net.depthOf c := by
    intro c p node hc hp
    obtain ⟨-, above, habove, hdepth⟩ := W.parent hc hp
    rw [depthOf_eq hc, depthOf_eq habove, hdepth]
    exact Nat.lt_succ_self _
  obtain ⟨node, p, hnode, hp, hw⟩ := h
  refine Nat.lt_of_le_of_lt ?_ (hstep hnode hp)
  clear hnode hp
  induction hw with
  | self => exact Nat.le_refl _
  | step hc hp _ ih => exact Nat.le_trans ih (Nat.le_of_lt (hstep hc hp))

/-- Memories feed their successors, each once. -/
theorem nodup_successors_of {as : List AlphaId} (h : as.Nodup) :
    (as.flatMap net.successorsOf).Nodup := by
  refine List.pairwise_flatMap.2 ⟨fun a _ => W.nodup_successors a, h.imp fun hne n hn k hk e => ?_⟩
  subst e
  exact hne (Feeds.unique (W.successors.1 hn) (W.successors.1 hk))

theorem not_beneath_self (n : NodeId) : ¬ net.Beneath n n := fun h =>
  Nat.lt_irrefl n (W.lt_of_beneath h)

/-- Two nodes under one parent have nothing in common below them. -/
theorem not_within_sibling {c d : NodeId} {cnode dnode : BetaNode} (hc : net.node? c = some cnode)
    (hd : net.node? d = some dnode) (hp : cnode.parent = dnode.parent) (hne : c ≠ d) :
    ¬ net.Within c d := by
  intro hw
  cases hw with
  | self => exact hne rfl
  | step h hpar hw =>
    obtain rfl : dnode = _ := Option.some.inj (hd.symm.trans h)
    exact W.not_within_parent hc (hp.trans hpar) hw

/-- The children of a node, each with the proof that it comes later. -/
theorem below_map (n : NodeId) : (net.below n).map Subtype.val = net.childrenOf n := by
  have hlater : ∀ c ∈ net.childrenOf n, n < c ∧ c < net.nodes.size := by
    intro c hc
    obtain ⟨node, hnode, hp⟩ := W.children.1 hc
    exact ⟨(W.parent hnode hp).1, lt_size hnode⟩
  unfold below
  generalize net.childrenOf n = cs at hlater ⊢
  induction cs with
  | nil => rfl
  | cons c rest ih =>
    have hc := hlater c List.mem_cons_self
    rw [List.filterMap_cons, dif_pos hc]
    simp only [List.map_cons]
    rw [ih fun d hd => hlater d (List.mem_cons_of_mem _ hd)]

end WellFormed

/-! ## The order in which a fact reaches nodes -/

theorem mem_rankNode {n m : NodeId} {nodes : List NodeId} :
    m ∈ net.rankNode n nodes ↔ m = n ∨ m ∈ nodes := by
  induction nodes with
  | nil => simp [rankNode]
  | cons k rest ih =>
    rw [rankNode]
    split
    · rw [List.mem_cons]
    · rw [List.mem_cons, ih, List.mem_cons, or_left_comm]

theorem mem_deepestFirst {m : NodeId} {nodes : List NodeId} :
    m ∈ net.deepestFirst nodes ↔ m ∈ nodes := by
  unfold deepestFirst
  induction nodes with
  | nil => rfl
  | cons n rest ih => rw [List.foldr_cons, mem_rankNode, ih, List.mem_cons]

theorem nodup_rankNode {n : NodeId} {nodes : List NodeId} (hn : n ∉ nodes) (h : nodes.Nodup) :
    (net.rankNode n nodes).Nodup := by
  induction nodes with
  | nil => exact List.pairwise_singleton _ n
  | cons k rest ih =>
    obtain ⟨hk, hr⟩ := List.nodup_cons.1 h
    rw [List.mem_cons, not_or] at hn
    rw [rankNode]
    split
    · exact List.nodup_cons.2 ⟨by rw [List.mem_cons, not_or]; exact hn, h⟩
    · refine List.nodup_cons.2 ⟨?_, ih hn.2 hr⟩
      rw [mem_rankNode, not_or]
      exact ⟨Ne.symm hn.1, hk⟩

theorem nodup_deepestFirst {nodes : List NodeId} (h : nodes.Nodup) :
    (net.deepestFirst nodes).Nodup := by
  unfold deepestFirst
  induction nodes with
  | nil => exact List.nodup_nil
  | cons n rest ih =>
    obtain ⟨hn, hr⟩ := List.nodup_cons.1 h
    refine nodup_rankNode ?_ (ih hr)
    exact fun h => hn (mem_deepestFirst.1 h)

theorem reachedBy_iff {m n : Nat} : net.reachedBy m n = true ↔
    net.depthOf n < net.depthOf m ∨ (net.depthOf m = net.depthOf n ∧ m ≤ n) := by
  simp only [reachedBy, dictionary, compareLex, compareOn, bne_iff_ne, ne_eq,
    Ordering.then_eq_gt, Int.compare_eq_gt, Int.compare_eq_eq, Nat.compare_eq_gt]
  omega

theorem depth_le_of_reachedBy {m n : NodeId} (h : net.reachedBy m n = true) :
    net.depthOf n ≤ net.depthOf m := by
  rcases reachedBy_iff.1 h with h | h
  · exact Nat.le_of_lt h
  · exact Nat.le_of_eq h.1.symm

/-- Nodes stand in the order in which a fact reaches them. -/
theorem pairwise_reachedBy (nodes : List NodeId) :
    (net.deepestFirst nodes).Pairwise fun m n => net.reachedBy m n = true := by
  have hplace : ∀ (n : NodeId) (ns : List NodeId),
      ns.Pairwise (fun m n => net.reachedBy m n = true) →
      (net.rankNode n ns).Pairwise fun m n => net.reachedBy m n = true := by
    intro n ns h
    induction ns with
    | nil => exact List.pairwise_singleton _ _
    | cons k rest ih =>
      obtain ⟨hk, hr⟩ := List.pairwise_cons.1 h
      rw [rankNode]
      split
      · next hnk =>
        refine List.pairwise_cons.2 ⟨fun j hj => ?_, h⟩
        rcases List.mem_cons.1 hj with rfl | hj
        · exact hnk
        · have hkj := hk j hj
          rw [reachedBy_iff] at hnk hkj ⊢
          omega
      · next hgt =>
        refine List.pairwise_cons.2 ⟨fun j hj => ?_, ih hr⟩
        rcases mem_rankNode.1 hj with rfl | hj
        · rw [reachedBy_iff] at hgt ⊢
          omega
        · exact hk j hj
  unfold deepestFirst
  induction nodes with
  | nil => exact List.Pairwise.nil
  | cons n rest ih => exact hplace n _ ih

/-- A fact reaches deeper nodes first. -/
theorem pairwise_deepestFirst (nodes : List NodeId) :
    (net.deepestFirst nodes).Pairwise fun m n => net.depthOf n ≤ net.depthOf m :=
  (pairwise_reachedBy nodes).imp depth_le_of_reachedBy

end RuleNet.Network
