/-
  Alpha memories of networks as they are built.

  * `AlphaNode.Grows`: what becomes of an alpha memory while rules are added.
  * `Network.Stores`, `Network.WellFormed.stores`: steps that change nothing but alpha memories.
  * `Network.WellFormed.alphaFor`, `Network.WellFormed.indexField`: memories are added and made
    findable by fields.
  * `Network.WellFormed.finish`: the finished network.
-/
import RuleNet.Network.Build
import RuleNet.Proofs.Network.Tree

namespace RuleNet

/-- What becomes of an alpha memory while rules are added. -/
structure AlphaNode.Grows (alpha alpha' : AlphaNode) : Prop where
  type : alpha'.type = alpha.type
  tests : alpha'.tests = alpha.tests
  window : alpha'.window = alpha.window
  indexedFields : ∀ {field}, field ∈ alpha.indexedFields → field ∈ alpha'.indexedFields

theorem AlphaNode.Grows.refl (alpha : AlphaNode) : alpha.Grows alpha := ⟨rfl, rfl, rfl, id⟩

theorem AlphaNode.Grows.trans {a b c : AlphaNode} (h : a.Grows b) (h' : b.Grows c) : a.Grows c :=
  ⟨h'.type.trans h.type, h'.tests.trans h.tests, h'.window.trans h.window,
    fun hf => h'.indexedFields (h.indexedFields hf)⟩

namespace Network

variable {net net' : Network}

/-- All alpha memories stay, with all they can be looked up by. -/
def Keeps (net net' : Network) : Prop :=
  ∀ a alpha, net.alpha? a = some alpha → ∃ alpha', net'.alpha? a = some alpha' ∧ alpha.Grows alpha'

theorem Keeps.refl (net : Network) : net.Keeps net := fun _ alpha ha => ⟨alpha, ha, .refl alpha⟩

theorem Keeps.trans {net'' : Network} (h : net.Keeps net') (h' : net'.Keeps net'') :
    net.Keeps net'' := fun a alpha ha => by
  obtain ⟨alpha', ha', hg⟩ := h a alpha ha
  obtain ⟨alpha'', ha'', hg'⟩ := h' a alpha' ha'
  exact ⟨alpha'', ha'', hg.trans hg'⟩

/-- A step that changes nothing but alpha memories. -/
structure Stores (net net' : Network) : Prop where
  keeps : net.Keeps net'
  nodes : net'.nodes = net.nodes
  terminals : net'.terminals = net.terminals
  rootChildren : net'.rootChildren = net.rootChildren
  rootTerminals : net'.rootTerminals = net.rootTerminals

theorem Stores.refl (net : Network) : net.Stores net := ⟨.refl net, rfl, rfl, rfl, rfl⟩

theorem Stores.trans {net'' : Network} (h : net.Stores net') (h' : net'.Stores net'') :
    net.Stores net'' :=
  ⟨h.keeps.trans h'.keeps, h'.nodes.trans h.nodes, h'.terminals.trans h.terminals,
    h'.rootChildren.trans h.rootChildren, h'.rootTerminals.trans h.rootTerminals⟩

theorem Stores.node? (h : net.Stores net') : net'.node? = net.node? :=
  funext fun n => by rw [Network.node?, Network.node?, h.nodes]

theorem Stores.kind? (h : net.Stores net') : net'.kind? = net.kind? :=
  funext fun n => by rw [Network.kind?, Network.kind?, h.node?]

/-- Memories may change as long as they feed the same nodes. -/
theorem WellFormed.stores (W : net.WellFormed) (h : net.Stores net')
    (hsucc : ∀ {a n}, n ∈ net'.successorsOf a ↔ n ∈ net.successorsOf a)
    (hnodup : ∀ a, (net'.successorsOf a).Nodup) : net'.WellFormed where
  parent := by rw [h.node?]; exact W.parent
  top := by rw [h.node?]; exact W.top
  children {p c} := by
    rw [h.node?, childrenOf, h.node?]
    exact W.children
  rootChildren := by rw [h.node?, h.rootChildren]; exact W.rootChildren
  nodup_children p := by
    rw [childrenOf, h.node?]
    exact W.nodup_children p
  nodup_rootChildren := by rw [h.rootChildren]; exact W.nodup_rootChildren
  feed {n kind feed} hk hf := by
    rw [h.kind?] at hk
    obtain ⟨alpha, ha, hindex⟩ := W.feed hk hf
    obtain ⟨alpha', ha', hg⟩ := h.keeps _ _ ha
    exact ⟨alpha', ha', fun index hi => hg.indexedFields (hindex index hi)⟩
  successors {a n} := by
    rw [hsucc, h.kind?]
    exact W.successors
  nodup_successors := hnodup
  terminals {n τ} := by
    rw [terminalsOf, h.node?, terminal?, h.terminals]
    exact W.terminals
  rootTerminals {τ} := by
    rw [h.rootTerminals, terminal?, h.terminals]
    exact W.rootTerminals
  nodup_terminals n := by
    rw [terminalsOf, h.node?]
    exact W.nodup_terminals n
  nodup_rootTerminals := by rw [h.rootTerminals]; exact W.nodup_rootTerminals

/-- The network without anything. -/
theorem wellFormed_empty : Network.empty.WellFormed where
  parent hn := by cases hn
  top hn := by cases hn
  children {p c} := by
    refine iff_of_false List.not_mem_nil ?_
    rintro ⟨node, hn, -⟩
    cases hn
  rootChildren {c} := by
    refine iff_of_false List.not_mem_nil ?_
    rintro ⟨node, hn, -⟩
    cases hn
  nodup_children _ := List.nodup_nil
  nodup_rootChildren := List.nodup_nil
  feed hk := by cases hk
  successors {a n} := by
    refine iff_of_false List.not_mem_nil ?_
    rintro ⟨kind, feed, hk, -⟩
    cases hk
  nodup_successors _ := List.nodup_nil
  terminals {n τ} := by
    refine iff_of_false List.not_mem_nil ?_
    rintro ⟨terminal, hτ, -⟩
    cases hτ
  rootTerminals {τ} := by
    refine iff_of_false List.not_mem_nil ?_
    rintro ⟨terminal, hτ, -⟩
    cases hτ
  nodup_terminals _ := List.nodup_nil
  nodup_rootTerminals := List.nodup_nil

/-! ## Alpha memories -/

/-- The members of a memory can be looked up by a field. -/
def Findable (net : Network) (a : AlphaId) (field : String) : Prop :=
  ∃ alpha, net.alpha? a = some alpha ∧ field ∈ alpha.indexedFields

/-- A memory is made findable by a field. -/
theorem alpha?_indexField (net : Network) (a b : AlphaId) (field : String) {alpha : AlphaNode}
    (hb : net.alpha? b = some alpha) : ∃ alpha', (net.indexField a field).alpha? b = some alpha' ∧
      alpha.Grows alpha' ∧ alpha'.successors = alpha.successors ∧
      (a = b → field ∈ alpha'.indexedFields) := by
  rw [alpha?] at hb
  simp only [indexField, alpha?, Array.getElem?_modify]
  by_cases hab : a = b
  · rw [if_pos hab, hb, Option.map_some]
    cases hc : alpha.indexedFields.contains field with
    | true =>
      exact ⟨alpha, rfl, .refl alpha, rfl, fun _ => List.contains_iff_mem.1 hc⟩
    | false =>
      exact ⟨_, rfl, ⟨rfl, rfl, rfl, fun hf => List.mem_append_left _ hf⟩, rfl,
        fun _ => List.mem_append_right _ (List.mem_singleton.2 rfl)⟩
  · rw [if_neg hab]
    exact ⟨alpha, hb, .refl alpha, rfl, fun e => absurd e hab⟩

theorem size_indexField (net : Network) (a : AlphaId) (field : String) :
    (net.indexField a field).alphas.size = net.alphas.size := Array.size_modify

theorem successorsOf_eq_nil {a : AlphaId} (h : net.alphas.size ≤ a) : net.successorsOf a = [] := by
  rw [successorsOf, alpha?, Array.getElem?_eq_none h]
  rfl

theorem successorsOf_eq {a : AlphaId} {alpha : AlphaNode} (h : net.alpha? a = some alpha) :
    net.successorsOf a = alpha.successors := by
  rw [successorsOf, h]
  rfl

theorem alpha?_of_lt {a : AlphaId} (h : a < net.alphas.size) : ∃ alpha, net.alpha? a = some alpha :=
  ⟨_, Array.getElem?_eq_getElem h⟩

theorem successorsOf_indexField (net : Network) (a b : AlphaId) (field : String) :
    (net.indexField a field).successorsOf b = net.successorsOf b := by
  by_cases hlt : b < net.alphas.size
  · obtain ⟨alpha, hb⟩ := alpha?_of_lt hlt
    obtain ⟨alpha', hb', -, hs, -⟩ := net.alpha?_indexField a b field hb
    rw [successorsOf_eq hb, successorsOf_eq hb', hs]
  · rw [successorsOf_eq_nil (Nat.not_lt.1 hlt), successorsOf_eq_nil]
    rw [size_indexField]
    exact Nat.not_lt.1 hlt

theorem stores_indexField (net : Network) (a : AlphaId) (field : String) :
    net.Stores (net.indexField a field) where
  keeps b alpha hb := by
    obtain ⟨alpha', hb', hg, -⟩ := net.alpha?_indexField a b field hb
    exact ⟨alpha', hb', hg⟩
  nodes := rfl
  terminals := rfl
  rootChildren := rfl
  rootTerminals := rfl

theorem WellFormed.indexField (W : net.WellFormed) (a : AlphaId) (field : String) :
    (net.indexField a field).WellFormed :=
  W.stores (net.stores_indexField a field)
    (fun {b n} => by rw [successorsOf_indexField])
    fun b => by
      rw [successorsOf_indexField]
      exact W.nodup_successors b

/-- The memory of a type, tests and window. -/
theorem alphaFor_spec {type : String} {tests : List (Test Place)} {window : Option Window}
    {a : AlphaId} (h : net.alphaFor type tests window = (a, net')) :
    net.Stores net' ∧ (∀ b, net'.successorsOf b = net.successorsOf b) ∧
    ∃ alpha, net'.alpha? a = some alpha ∧ alpha.type = type ∧ alpha.window = window ∧
      alpha.tests.Perm tests := by
  unfold alphaFor at h
  split at h
  · next b hb =>
    cases h
    obtain ⟨hlt, hp, -⟩ := Array.findIdx?_eq_some_iff_getElem.1 hb
    simp only [Bool.and_eq_true, beq_iff_eq, decide_eq_true_eq, List.isPerm_iff] at hp
    exact ⟨.refl net, fun _ => rfl, _, Array.getElem?_eq_getElem hlt, hp.1.1, hp.1.2, hp.2⟩
  · obtain ⟨rfl, rfl⟩ := Prod.mk.inj h
    have hsame : ∀ {b : AlphaId}, b < net.alphas.size → ∀ alpha : AlphaNode,
        (net.alphas.push alpha)[b]? = net.alphas[b]? := fun hlt alpha => by
      rw [Array.getElem?_push, if_neg (Nat.ne_of_lt hlt)]
    refine ⟨⟨fun b alpha hb => ⟨alpha, ?_, .refl alpha⟩, rfl, rfl, rfl, rfl⟩, fun b => ?_,
      _, Array.getElem?_push_size, rfl, rfl, .refl tests⟩
    · obtain ⟨hlt, -⟩ := Array.getElem?_eq_some_iff.1 hb
      exact (hsame hlt _).trans hb
    · simp only [successorsOf, alpha?, Array.getElem?_push]
      split
      · next heq =>
        rw [Array.getElem?_eq_none (Nat.le_of_eq heq.symm)]
        rfl
      · rfl

theorem WellFormed.alphaFor (W : net.WellFormed) {type : String} {tests : List (Test Place)}
    {window : Option Window} {a : AlphaId} (h : net.alphaFor type tests window = (a, net')) :
    net'.WellFormed := by
  obtain ⟨hs, hsucc, -⟩ := alphaFor_spec h
  exact W.stores hs (fun {b n} => by rw [hsucc]) fun b => by
    rw [hsucc]
    exact W.nodup_successors b

/-! ## The finished network -/

theorem alpha?_finish (net : Network) (a : AlphaId) :
    net.finish.alpha? a = (net.alpha? a).map fun alpha =>
      { alpha with successors := net.deepestFirst alpha.successors } := by
  simp only [Network.finish, alpha?, Array.getElem?_map]

theorem successorsOf_finish (net : Network) (a : AlphaId) :
    net.finish.successorsOf a = net.deepestFirst (net.successorsOf a) := by
  rw [successorsOf, alpha?_finish, successorsOf]
  cases net.alpha? a with
  | none => rfl
  | some alpha => rfl

theorem stores_finish (net : Network) : net.Stores net.finish where
  keeps a _ ha := ⟨_, (net.alpha?_finish a).trans (congrArg _ ha), rfl, rfl, rfl, id⟩
  nodes := rfl
  terminals := rfl
  rootChildren := rfl
  rootTerminals := rfl

/-- The finished network. -/
theorem WellFormed.finish (W : net.WellFormed) : net.finish.WellFormed :=
  W.stores net.stores_finish
    (fun {a n} => by rw [successorsOf_finish, mem_deepestFirst])
    fun a => by
      rw [successorsOf_finish]
      exact nodup_deepestFirst (W.nodup_successors a)

end Network

end RuleNet
