/-
  Nodes and terminals of networks as they are built.

  * `Network.Adds`: a node is added under a parent, and a memory feeds it.
  * `Network.WellFormed.nodeFor`: the node of a kind under a parent, which may be there already.
  * `Network.Ends`, `Network.WellFormed.addTerminal`: a branch ends after a node.
-/
import RuleNet.Proofs.Data.Filing
import RuleNet.Proofs.Network.Memories

namespace RuleNet.Network

variable {net net' : Network}

/-! ## Nodes -/

/-- Whether nodes may stand below this one, or below none. -/
def Holds (net : Network) (parent : Option NodeId) : Prop :=
  ∀ p, parent = some p → ∃ node, net.node? p = some node

/-- The depth of a node under this one, or under none. -/
def depthUnder (net : Network) : Option NodeId → Nat
  | some p => net.depthOf p + 1
  | none => 1

/-- A node has been added under a parent. -/
structure Adds (net net' : Network) (parent : Option NodeId) (kind : NodeKind) : Prop where
  keeps : net.Keeps net'
  node : ∀ k, net'.node? k = if k = net.nodes.size then
      some ⟨parent, net.depthUnder parent, kind, [], []⟩
    else (net.node? k).map fun node =>
      if parent = some k then { node with children := node.children ++ [net.nodes.size] } else node
  rootChildren : net'.rootChildren =
    if parent = none then net.rootChildren ++ [net.nodes.size] else net.rootChildren
  terminals : net'.terminals = net.terminals
  rootTerminals : net'.rootTerminals = net.rootTerminals
  successors : ∀ a, net'.successorsOf a =
    net.successorsOf a ++ if kind.alpha? = some a then [net.nodes.size] else []
  findable : ∀ feed index, kind.feed? = some feed → feed.index = some index →
    net'.Findable feed.alpha index.field

namespace Adds

variable {parent : Option NodeId} {kind : NodeKind} (A : net.Adds net' parent kind)
include A

theorem new : ∃ node, net'.node? net.nodes.size = some node ∧ node.parent = parent ∧
    node.kind = kind ∧ node.terminals = [] ∧ node.depth = net.depthUnder parent :=
  ⟨_, (A.node _).trans (if_pos rfl), rfl, rfl, rfl, rfl⟩

theorem old {k : NodeId} {node : BetaNode} (hk : net.node? k = some node) :
    ∃ node', net'.node? k = some node' ∧ node'.parent = node.parent ∧ node'.depth = node.depth ∧
      node'.kind = node.kind ∧ node'.terminals = node.terminals := by
  have hne : k ≠ net.nodes.size := Nat.ne_of_lt (lt_size hk)
  rw [A.node, if_neg hne, hk, Option.map_some]
  refine ⟨_, rfl, ?_⟩
  split
  · exact ⟨rfl, rfl, rfl, rfl⟩
  · exact ⟨rfl, rfl, rfl, rfl⟩

theorem old_or_new {k : NodeId} {node' : BetaNode} (hk : net'.node? k = some node') :
    (k = net.nodes.size ∧ node'.parent = parent ∧ node'.kind = kind ∧ node'.terminals = [] ∧
      node'.depth = net.depthUnder parent) ∨
    ∃ node, net.node? k = some node ∧ node'.parent = node.parent ∧ node'.depth = node.depth ∧
      node'.kind = node.kind ∧ node'.terminals = node.terminals := by
  by_cases heq : k = net.nodes.size
  · subst heq
    obtain ⟨node, hnode, hp, hkind, ht, hd⟩ := A.new
    obtain rfl := Option.some.inj (hnode.symm.trans hk)
    exact Or.inl ⟨rfl, hp, hkind, ht, hd⟩
  · have hold := A.node k
    rw [if_neg heq] at hold
    rw [hold] at hk
    obtain ⟨node, hnode, rfl⟩ := Option.map_eq_some_iff.1 hk
    refine Or.inr ⟨node, hnode, ?_⟩
    split
    · exact ⟨rfl, rfl, rfl, rfl⟩
    · exact ⟨rfl, rfl, rfl, rfl⟩

/-- What holds of the parent and the kind of a node holds of an old node or of the new one. -/
theorem node_iff {P : Option NodeId → NodeKind → Prop} {k : NodeId} :
    (∃ node, net'.node? k = some node ∧ P node.parent node.kind) ↔
      (∃ node, net.node? k = some node ∧ P node.parent node.kind) ∨
        (P parent kind ∧ k = net.nodes.size) := by
  constructor
  · rintro ⟨node', hk, hP⟩
    rcases A.old_or_new hk with ⟨hnew, hp, hkind, -⟩ | ⟨node, hnode, hp, -, hkind, -⟩
    · exact Or.inr ⟨hp ▸ hkind ▸ hP, hnew⟩
    · exact Or.inl ⟨node, hnode, hp ▸ hkind ▸ hP⟩
  · rintro (⟨node, hk, hP⟩ | ⟨hP, rfl⟩)
    · obtain ⟨node', hk', hp, -, hkind, -⟩ := A.old hk
      exact ⟨node', hk', hp.symm ▸ hkind.symm ▸ hP⟩
    · obtain ⟨node', hk', hp, hkind, -⟩ := A.new
      exact ⟨node', hk', hp.symm ▸ hkind.symm ▸ hP⟩

theorem kind_iff {P : NodeKind → Prop} {k : NodeId} : (∃ kind', net'.kind? k = some kind' ∧ P kind') ↔
    (∃ kind', net.kind? k = some kind' ∧ P kind') ∨ (P kind ∧ k = net.nodes.size) := by
  have hall : ∀ N : Network, (∃ kind', N.kind? k = some kind' ∧ P kind') ↔
      ∃ node, N.node? k = some node ∧ P node.kind := fun N => by
    constructor
    · rintro ⟨kind', hk, hP⟩
      obtain ⟨node, hn, rfl⟩ := kind?_eq_some.1 hk
      exact ⟨node, hn, hP⟩
    · rintro ⟨node, hn, hP⟩
      exact ⟨node.kind, kind?_eq hn, hP⟩
  rw [hall net', hall net]
  exact A.node_iff (P := fun _ kind' => P kind')

theorem childrenOf (p : NodeId) (hholds : net.Holds parent) : net'.childrenOf p =
    net.childrenOf p ++ if parent = some p then [net.nodes.size] else [] := by
  rw [Network.childrenOf, A.node, Network.childrenOf]
  by_cases heq : p = net.nodes.size
  · have hno : parent ≠ some p := fun e => by
      obtain ⟨node, hn⟩ := hholds p e
      exact Nat.ne_of_lt (lt_size hn) heq
    have hnone : net.node? p = none := Array.getElem?_eq_none (Nat.le_of_eq heq.symm)
    rw [if_pos heq, if_neg hno, hnone]
    rfl
  · rw [if_neg heq]
    cases hn : net.node? p with
    | none =>
      rw [if_neg fun e => by
        obtain ⟨node, hn'⟩ := hholds p e
        rw [hn] at hn'
        cases hn']
      rfl
    | some node =>
      by_cases hp : parent = some p
      · simp only [Option.map_some, if_pos hp, Option.getD_some]
      · simp only [Option.map_some, if_neg hp, Option.getD_some, List.append_nil]

theorem terminalsOf (n : NodeId) : net'.terminalsOf n = net.terminalsOf n := by
  cases hn : net'.node? n with
  | none =>
    have hnone : net.node? n = none := by
      cases hold : net.node? n with
      | none => rfl
      | some node =>
        obtain ⟨node', hn', -⟩ := A.old hold
        rw [hn] at hn'
        cases hn'
    rw [Network.terminalsOf, Network.terminalsOf, hn, hnone]
  | some node' =>
    rcases A.old_or_new hn with ⟨rfl, -, -, ht, -⟩ | ⟨node, hnode, -, -, -, ht⟩
    · have hnone : net.node? net.nodes.size = none := Array.getElem?_eq_none (Nat.le_refl _)
      rw [Network.terminalsOf, Network.terminalsOf, hn, hnone]
      exact ht
    · rw [Network.terminalsOf, Network.terminalsOf, hn, hnode]
      exact ht

end Adds

/-- A node is added under a parent. -/
theorem WellFormed.adds (W : net.WellFormed) {parent : Option NodeId} {kind : NodeKind}
    (A : net.Adds net' parent kind) (hholds : net.Holds parent)
    (hfeed : ∀ feed, kind.feed? = some feed → ∃ alpha, net.alpha? feed.alpha = some alpha) :
    net'.WellFormed where
  parent {n node p} hn hp := by
    rcases A.old_or_new hn with ⟨rfl, hparent, -, -, hd⟩ | ⟨old, hold, hparent, hd, -⟩
    · rw [hparent] at hp
      subst hp
      obtain ⟨above, habove⟩ := hholds p rfl
      obtain ⟨above', habove', -, hd', -⟩ := A.old habove
      refine ⟨lt_size habove, above', habove', ?_⟩
      rw [hd, hd', depthUnder, depthOf_eq habove]
    · rw [hparent] at hp
      obtain ⟨hlt, above, habove, hdepth⟩ := W.parent hold hp
      obtain ⟨above', habove', -, hd', -⟩ := A.old habove
      exact ⟨hlt, above', habove', by rw [hd, hd', hdepth]⟩
  top {n node} hn hp := by
    rcases A.old_or_new hn with ⟨-, hparent, -, -, hd⟩ | ⟨old, hold, hparent, hd, -⟩
    · rw [hparent] at hp
      subst hp
      exact hd
    · rw [hd]
      exact W.top hold (hparent.symm.trans hp)
  children {p c} := by
    rw [A.childrenOf p hholds, mem_append_if, W.children]
    exact (A.node_iff (P := fun above _ => above = some p)).symm
  rootChildren {c} := by
    rw [A.rootChildren, append_if, mem_append_if, W.rootChildren]
    exact (A.node_iff (P := fun above _ => above = none)).symm
  nodup_children p := by
    rw [A.childrenOf p hholds]
    refine nodup_append_if (W.nodup_children p) fun hc => ?_
    obtain ⟨node, hn, -⟩ := W.children.1 hc
    exact Nat.lt_irrefl _ (lt_size hn)
  nodup_rootChildren := by
    rw [A.rootChildren, append_if]
    refine nodup_append_if W.nodup_rootChildren fun hc => ?_
    obtain ⟨node, hn, -⟩ := W.rootChildren.1 hc
    exact Nat.lt_irrefl _ (lt_size hn)
  feed {n kind' feed} hk hf := by
    obtain ⟨node', hn', rfl⟩ := kind?_eq_some.1 hk
    rcases A.old_or_new hn' with ⟨rfl, -, hkind, -⟩ | ⟨node, hn, -, -, hkind, -⟩
    · rw [hkind] at hf
      obtain ⟨alpha, ha⟩ := hfeed feed hf
      obtain ⟨alpha', ha', -⟩ := A.keeps _ _ ha
      refine ⟨alpha', ha', fun index hi => ?_⟩
      obtain ⟨found, hfound, hfield⟩ := A.findable feed index hf hi
      obtain rfl := Option.some.inj (ha'.symm.trans hfound)
      exact hfield
    · rw [hkind] at hf
      obtain ⟨alpha, ha, hindex⟩ := W.feed (kind?_eq hn) hf
      obtain ⟨alpha', ha', hg⟩ := A.keeps _ _ ha
      exact ⟨alpha', ha', fun index hi => hg.indexedFields (hindex index hi)⟩
  successors {a n} := by
    have hfed : kind.alpha? = some a ↔ ∃ feed, kind.feed? = some feed ∧ feed.alpha = a :=
      Option.map_eq_some_iff
    rw [A.successors, mem_append_if, W.successors, hfed]
    simp only [exists_and_left]
    exact (A.kind_iff (P := fun kind => ∃ feed, kind.feed? = some feed ∧ feed.alpha = a)).symm
  nodup_successors a := by
    rw [A.successors]
    refine nodup_append_if (W.nodup_successors a) fun hc => ?_
    obtain ⟨kind', feed, hk, -⟩ := W.successors.1 hc
    obtain ⟨node, hn, -⟩ := kind?_eq_some.1 hk
    exact Nat.lt_irrefl _ (lt_size hn)
  terminals {n τ} := by
    rw [A.terminalsOf, terminal?, A.terminals]
    exact W.terminals
  rootTerminals {τ} := by
    rw [A.rootTerminals, terminal?, A.terminals]
    exact W.rootTerminals
  nodup_terminals n := by
    rw [A.terminalsOf]
    exact W.nodup_terminals n
  nodup_rootTerminals := by
    rw [A.rootTerminals]
    exact W.nodup_rootTerminals

/-- A memory feeds one more node. -/
theorem connect_spec {feed : Feed} (n : NodeId)
    (hfeed : ∃ alpha, net.alpha? feed.alpha = some alpha) :
    net.Stores (net.connect feed n) ∧
    (∀ a, (net.connect feed n).successorsOf a =
      net.successorsOf a ++ if feed.alpha = a then [n] else []) ∧
    ∀ index, feed.index = some index → (net.connect feed n).Findable feed.alpha index.field := by
  obtain ⟨net₁, hnet₁⟩ : ∃ net₁ : Network, { net with
      alphas := net.alphas.modify feed.alpha fun alpha =>
        { alpha with successors := alpha.successors ++ [n] } } = net₁ := ⟨_, rfl⟩
  have halpha : ∀ a, net₁.alpha? a = if feed.alpha = a then
      (net.alpha? a).map fun alpha => { alpha with successors := alpha.successors ++ [n] }
      else net.alpha? a := fun a => by
    rw [← hnet₁]
    exact Array.getElem?_modify
  have hstores : net.Stores net₁ := by
    subst hnet₁
    refine ⟨fun a alpha ha => ?_, rfl, rfl, rfl, rfl⟩
    rw [halpha, ha]
    split
    · exact ⟨_, rfl, rfl, rfl, rfl, id⟩
    · exact ⟨alpha, rfl, .refl alpha⟩
  have hsucc : ∀ a, net₁.successorsOf a =
      net.successorsOf a ++ if feed.alpha = a then [n] else [] := fun a => by
    rw [successorsOf, halpha, successorsOf]
    by_cases heq : feed.alpha = a
    · obtain ⟨alpha, ha⟩ := hfeed
      rw [heq] at ha
      rw [if_pos heq, if_pos heq, ha]
      rfl
    · rw [if_neg heq, if_neg heq, List.append_nil]
  simp only [connect, hnet₁]
  cases hi : feed.index with
  | none => exact ⟨hstores, hsucc, fun index h => by cases h⟩
  | some index =>
    refine ⟨hstores.trans (net₁.stores_indexField feed.alpha index.field), fun a => ?_,
      fun index' h => ?_⟩
    · rw [successorsOf_indexField, hsucc]
    · cases h
      obtain ⟨alpha, ha⟩ := hfeed
      obtain ⟨alpha', ha', -⟩ := hstores.keeps _ _ ha
      obtain ⟨alpha'', ha'', -, -, hfield⟩ := net₁.alpha?_indexField feed.alpha _ index.field ha'
      exact ⟨alpha'', ha'', hfield rfl⟩

/-- A memory feeds one more node, if it is a memory that feeds nodes of the kind. -/
def connectKind (net : Network) (kind : NodeKind) (n : NodeId) : Network := match kind.feed? with
  | some feed => net.connect feed n
  | none => net

theorem connectKind_spec {kind : NodeKind} (n : NodeId)
    (hfeed : ∀ feed, kind.feed? = some feed → ∃ alpha, net.alpha? feed.alpha = some alpha) :
    net.Stores (net.connectKind kind n) ∧
    (∀ a, (net.connectKind kind n).successorsOf a =
      net.successorsOf a ++ if kind.alpha? = some a then [n] else []) ∧
    ∀ feed index, kind.feed? = some feed → feed.index = some index →
      (net.connectKind kind n).Findable feed.alpha index.field := by
  cases hf : kind.feed? with
  | none =>
    simp only [connectKind, NodeKind.alpha?, hf]
    exact ⟨.refl net, fun a => (List.append_nil _).symm, fun feed index h => nomatch h⟩
  | some feed =>
    obtain ⟨hs, hsucc, hfind⟩ := connect_spec n (hfeed feed hf)
    simp only [connectKind, NodeKind.alpha?, hf, Option.map_some, Option.some.injEq]
    refine ⟨hs, hsucc, ?_⟩
    rintro feed' index rfl hi
    exact hfind index hi

section
variable (net : Network) (parent : Option NodeId) (n : NodeId)

/-! A node that is put under a parent is a child of it, and nothing else changes. -/

@[simp]
theorem alphas_attach : (net.attach parent n).alphas = net.alphas := by
  cases parent with
  | none => rfl
  | some p => rfl

@[simp]
theorem terminals_attach : (net.attach parent n).terminals = net.terminals := by
  cases parent with
  | none => rfl
  | some p => rfl

@[simp]
theorem rootTerminals_attach : (net.attach parent n).rootTerminals = net.rootTerminals := by
  cases parent with
  | none => rfl
  | some p => rfl

theorem rootChildren_attach : (net.attach parent n).rootChildren =
    if parent = none then net.rootChildren ++ [n] else net.rootChildren := by
  cases parent with
  | none => rfl
  | some p => rfl

theorem size_attach : (net.attach parent n).nodes.size = net.nodes.size := by
  cases parent with
  | none => rfl
  | some p => exact Array.size_modify

theorem node?_attach (k : NodeId) : (net.attach parent n).node? k =
    (net.node? k).map fun node =>
      if parent = some k then { node with children := node.children ++ [n] } else node := by
  cases parent with
  | none =>
    simp only [attach, reduceCtorEq, if_false]
    exact Option.map_id'.symm ▸ rfl
  | some p =>
    simp only [attach, node?, Array.getElem?_modify, Option.some.injEq]
    by_cases heq : p = k
    · simp only [heq, if_true]
    · simp only [heq, if_false]
      exact Option.map_id'.symm ▸ rfl

end

/-- A new node under a parent. -/
theorem adds_nodeFor (parent : Option NodeId) {kind : NodeKind}
    (hfeed : ∀ feed, kind.feed? = some feed → ∃ alpha, net.alpha? feed.alpha = some alpha)
    {net₂ : Network}
    (hnet₂ : (net.connectKind kind net.nodes.size).attach parent net.nodes.size = net₂) :
    net.Adds { net₂ with
      nodes := net₂.nodes.push ⟨parent, net.depthUnder parent, kind, [], []⟩ } parent kind := by
  obtain ⟨hs, hsucc, hfind⟩ := connectKind_spec net.nodes.size hfeed
  generalize net.connectKind kind net.nodes.size = net₁ at hnet₂ hs hsucc hfind
  subst hnet₂
  have halpha : ∀ a, (net₁.attach parent net.nodes.size).alpha? a = net₁.alpha? a := fun a => by
    rw [alpha?, alphas_attach]
    rfl
  constructor
  case keeps =>
    intro a alpha ha
    obtain ⟨alpha', ha', hg⟩ := hs.keeps a alpha ha
    exact ⟨alpha', (halpha a).trans ha', hg⟩
  case node =>
    intro k
    have hold := node?_attach net₁ parent net.nodes.size k
    rw [node?, node?, hs.nodes] at hold
    refine Array.getElem?_push.trans ?_
    rw [size_attach, hs.nodes, hold]
    rfl
  case rootChildren => exact (rootChildren_attach _ _ _).trans (by rw [hs.rootChildren])
  case terminals => exact (terminals_attach _ _ _).trans hs.terminals
  case rootTerminals => exact (rootTerminals_attach _ _ _).trans hs.rootTerminals
  case successors =>
    intro a
    rw [← hsucc, successorsOf, successorsOf, ← halpha]
    rfl
  case findable =>
    intro feed index hf hi
    obtain ⟨alpha, ha, hfield⟩ := hfind feed index hf hi
    exact ⟨alpha, (halpha feed.alpha).trans ha, hfield⟩

theorem WellFormed.mem_childrenUnder (W : net.WellFormed) {parent : Option NodeId} {c : NodeId} :
    c ∈ net.childrenUnder parent ↔ ∃ node, net.node? c = some node ∧ node.parent = parent := by
  cases parent with
  | none => exact W.rootChildren
  | some p => exact W.children

/-- The node of a kind under a parent, and what it does to the network that there is one. -/
structure Grown (net net' : Network) (parent : Option NodeId) (kind : NodeKind) (n : NodeId) :
    Prop where
  wellFormed : net'.WellFormed
  keeps : net.Keeps net'
  node : ∃ node, net'.node? n = some node ∧ node.parent = parent
  kinds : ∀ {k kind'}, net'.kind? k = some kind' → net.kind? k = some kind' ∨ kind' = kind

/-- The node of a kind under a parent is there already, or else it is added. -/
theorem nodeFor_cases {parent : Option NodeId} {kind : NodeKind}
    (hfeed : ∀ feed, kind.feed? = some feed → ∃ alpha, net.alpha? feed.alpha = some alpha)
    {n : NodeId} (h : net.nodeFor parent kind = (n, net')) :
    (net.Stores net' ∧ net'.alphas = net.alphas ∧ n ∈ net.childrenUnder parent ∧
      (net.kind? n).any (NodeKind.same kind) = true) ∨
    (n = net.nodes.size ∧ net.Adds net' parent kind ∧
      ∀ c ∈ net.childrenUnder parent, (net.kind? c).any (NodeKind.same kind) = false) := by
  unfold Network.nodeFor at h
  split at h
  · next k hk =>
    cases h
    have hsame := List.find?_some hk
    exact .inl ⟨⟨.refl net, rfl, rfl, rfl, rfl⟩, rfl, List.mem_of_find?_eq_some hk, hsame⟩
  · next hnone =>
    have A := adds_nodeFor parent hfeed rfl
    have hnet' : net' = { (net.connectKind kind net.nodes.size).attach parent net.nodes.size with
        nodes := ((net.connectKind kind net.nodes.size).attach parent net.nodes.size).nodes.push
          ⟨parent, net.depthUnder parent, kind, [], []⟩ } := by
      rw [← (Prod.mk.inj h).2]
      cases parent with
      | none => rfl
      | some p => rfl
    rw [← hnet'] at A
    refine .inr ⟨(Prod.mk.inj h).1.symm, A, fun c hc => ?_⟩
    exact Bool.eq_false_iff.2 (List.find?_eq_none.1 hnone c hc)

theorem WellFormed.nodeFor (W : net.WellFormed) {parent : Option NodeId} {kind : NodeKind}
    (hholds : net.Holds parent)
    (hfeed : ∀ feed, kind.feed? = some feed → ∃ alpha, net.alpha? feed.alpha = some alpha)
    {n : NodeId} (h : net.nodeFor parent kind = (n, net')) : net.Grown net' parent kind n := by
  rcases nodeFor_cases hfeed h with ⟨S, halphas, hn, -⟩ | ⟨rfl, A, -⟩
  · have hsucc : ∀ a, net'.successorsOf a = net.successorsOf a := fun a => by
      rw [successorsOf, alpha?, halphas]
      rfl
    refine ⟨W.stores S (fun {a k} => by rw [hsucc]) fun a => hsucc a ▸ W.nodup_successors a,
      S.keeps, ?_, fun hk => .inl (S.kind? ▸ hk)⟩
    rw [S.node?]
    exact W.mem_childrenUnder.1 hn
  · obtain ⟨node, hnode, hp, -⟩ := A.new
    refine ⟨W.adds A hholds hfeed, A.keeps, ⟨node, hnode, hp⟩, fun {k kind'} hk => ?_⟩
    obtain ⟨node', hn', rfl⟩ := kind?_eq_some.1 hk
    rcases A.old_or_new hn' with ⟨-, -, hkind, -⟩ | ⟨old, hold, -, -, hkind, -⟩
    · exact Or.inr hkind
    · rw [hkind]
      exact Or.inl (kind?_eq hold)

/-! ## Terminals -/

/-- A terminal has been added after a node. -/
structure Ends (net net' : Network) (last : Option NodeId) : Prop where
  alphas : net'.alphas = net.alphas
  node : ∀ k, net'.node? k = (net.node? k).map fun node => if last = some k then
    { node with terminals := node.terminals ++ [net.terminals.size] } else node
  rootChildren : net'.rootChildren = net.rootChildren
  terminal : ∃ terminal : Terminal, terminal.node = last ∧ ∀ τ, net'.terminal? τ =
    if τ = net.terminals.size then some terminal else net.terminal? τ
  rootTerminals : net'.rootTerminals =
    if last = none then net.rootTerminals ++ [net.terminals.size] else net.rootTerminals

theorem ends_addTerminal (net : Network) (rule : Nat) (last : Option NodeId) (scope : Scope) :
    net.Ends (net.addTerminal rule last scope) last := by
  have hterminal : ∀ net' : Network, net'.terminals =
      net.terminals.push ⟨rule, last, scope.places⟩ → ∃ terminal : Terminal,
        terminal.node = last ∧ ∀ τ, net'.terminal? τ =
          if τ = net.terminals.size then some terminal else net.terminal? τ := fun net' h => by
    refine ⟨⟨rule, last, scope.places⟩, rfl, fun τ => ?_⟩
    rw [terminal?, h]
    exact Array.getElem?_push
  cases last with
  | none =>
    refine ⟨rfl, fun k => ?_, rfl, hterminal _ rfl, rfl⟩
    simp only [reduceCtorEq, if_false]
    exact Option.map_id'.symm ▸ rfl
  | some n =>
    refine ⟨rfl, fun k => ?_, rfl, hterminal _ rfl, rfl⟩
    simp only [addTerminal, node?, Array.getElem?_modify, Option.some.injEq]
    by_cases heq : n = k
    · simp only [heq, if_true]
    · simp only [heq, if_false]
      exact Option.map_id'.symm ▸ rfl

namespace Ends

variable {last : Option NodeId} (E : net.Ends net' last)
include E

theorem node_iff {P : Option NodeId → Nat → NodeKind → List NodeId → Prop} {k : NodeId} :
    (∃ node, net'.node? k = some node ∧ P node.parent node.depth node.kind node.children) ↔
      ∃ node, net.node? k = some node ∧ P node.parent node.depth node.kind node.children := by
  rw [E.node]
  constructor
  · rintro ⟨node', hn, hp⟩
    obtain ⟨node, hnode, rfl⟩ := Option.map_eq_some_iff.1 hn
    refine ⟨node, hnode, ?_⟩
    split at hp
    · exact hp
    · exact hp
  · rintro ⟨node, hn, hp⟩
    rw [hn, Option.map_some]
    refine ⟨_, rfl, ?_⟩
    split
    · exact hp
    · exact hp

theorem childrenOf (p : NodeId) : net'.childrenOf p = net.childrenOf p := by
  rw [Network.childrenOf, E.node, Network.childrenOf]
  cases net.node? p with
  | none => rfl
  | some node =>
    simp only [Option.map_some, Option.getD_some]
    split
    · rfl
    · rfl

theorem kind? (k : NodeId) : net'.kind? k = net.kind? k := by
  rw [Network.kind?, E.node, Network.kind?]
  cases net.node? k with
  | none => rfl
  | some node =>
    simp only [Option.map_some]
    split
    · rfl
    · rfl

/-- A terminal after a node is an old one or the new one. -/
theorem terminal_iff {place : Option NodeId} {τ : TerminalId} :
    (∃ terminal, net'.terminal? τ = some terminal ∧ terminal.node = place) ↔
      (∃ terminal, net.terminal? τ = some terminal ∧ terminal.node = place) ∨
        (last = place ∧ τ = net.terminals.size) := by
  obtain ⟨terminal, hlast, hterminal⟩ := E.terminal
  rw [hterminal]
  by_cases heq : τ = net.terminals.size
  · have hfresh : net.terminal? τ = none := Array.getElem?_eq_none (Nat.le_of_eq heq.symm)
    rw [if_pos heq, hfresh, and_iff_left heq]
    constructor
    · rintro ⟨t, ht, hplace⟩
      obtain rfl := Option.some.inj ht
      exact Or.inr (hlast.symm.trans hplace)
    · rintro (⟨t, ht, -⟩ | hplace)
      · cases ht
      · exact ⟨terminal, rfl, hlast.trans hplace⟩
  · rw [if_neg heq]
    exact (or_iff_left fun h => heq h.2).symm

theorem terminalsOf (n : NodeId) (hholds : net.Holds last) : net'.terminalsOf n =
    net.terminalsOf n ++ if last = some n then [net.terminals.size] else [] := by
  rw [Network.terminalsOf, E.node, Network.terminalsOf]
  cases hn : net.node? n with
  | none =>
    rw [if_neg fun e => by
      obtain ⟨node, hn'⟩ := hholds n e
      rw [hn] at hn'
      cases hn']
    rfl
  | some node =>
    simp only [Option.map_some, Option.getD_some]
    split
    · rfl
    · exact (List.append_nil _).symm

end Ends

/-- A branch ends after a node. -/
theorem WellFormed.addTerminal (W : net.WellFormed) {last : Option NodeId}
    (hholds : net.Holds last) (rule : Nat) (scope : Scope) :
    (net.addTerminal rule last scope).WellFormed := by
  have E := net.ends_addTerminal rule last scope
  generalize net.addTerminal rule last scope = net' at E
  have hsucc : ∀ a, net'.successorsOf a = net.successorsOf a := fun a => by
    rw [successorsOf, alpha?, E.alphas]
    rfl
  have hfresh : ∀ {terminal}, net.terminal? net.terminals.size ≠ some terminal := fun h =>
    Nat.lt_irrefl _ (Array.getElem?_eq_some_iff.1 h).1
  have hnode := fun P k => E.node_iff (P := P) (k := k)
  constructor
  case parent =>
    intro n node p hn hp
    obtain ⟨old, ho, hparent, hdepth⟩ := (hnode (fun parent depth _ _ =>
      parent = some p ∧ depth = node.depth) n).1 ⟨node, hn, hp, rfl⟩
    obtain ⟨hlt, above, habove, hd⟩ := W.parent ho hparent
    obtain ⟨above', habove', hd'⟩ := (hnode (fun _ depth _ _ => depth = above.depth) p).2
      ⟨above, habove, rfl⟩
    exact ⟨hlt, above', habove', by rw [← hdepth, hd, hd']⟩
  case top =>
    intro n node hn hp
    obtain ⟨old, ho, hparent, hdepth⟩ := (hnode (fun parent depth _ _ =>
      parent = none ∧ depth = node.depth) n).1 ⟨node, hn, hp, rfl⟩
    rw [← hdepth]
    exact W.top ho hparent
  case children =>
    intro p c
    rw [E.childrenOf, W.children]
    exact (hnode (fun parent _ _ _ => parent = some p) c).symm
  case rootChildren =>
    intro c
    rw [E.rootChildren, W.rootChildren]
    exact (hnode (fun parent _ _ _ => parent = none) c).symm
  case nodup_children =>
    intro p
    rw [E.childrenOf]
    exact W.nodup_children p
  case nodup_rootChildren =>
    rw [E.rootChildren]
    exact W.nodup_rootChildren
  case feed =>
    intro n kind feed hk hf
    rw [E.kind?] at hk
    rw [alpha?, E.alphas]
    exact W.feed hk hf
  case successors =>
    intro a n
    rw [hsucc, W.successors]
    simp only [E.kind?]
  case nodup_successors =>
    intro a
    rw [hsucc]
    exact W.nodup_successors a
  case terminals =>
    intro n τ
    rw [E.terminalsOf n hholds, mem_append_if, W.terminals, E.terminal_iff]
  case rootTerminals =>
    intro τ
    rw [E.rootTerminals, append_if, mem_append_if, W.rootTerminals, E.terminal_iff]
  case nodup_terminals =>
    intro n
    rw [E.terminalsOf n hholds]
    refine nodup_append_if (W.nodup_terminals n) fun hτ => ?_
    obtain ⟨t, ht, -⟩ := W.terminals.1 hτ
    exact hfresh ht
  case nodup_rootTerminals =>
    rw [E.rootTerminals, append_if]
    refine nodup_append_if W.nodup_rootTerminals fun hτ => ?_
    obtain ⟨t, ht, -⟩ := W.rootTerminals.1 hτ
    exact hfresh ht

end RuleNet.Network
