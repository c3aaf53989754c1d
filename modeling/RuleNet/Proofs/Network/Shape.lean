/-
  The shape of a compiled network.

  However many rules and queries share its memories and nodes, a network is a forest of nodes, and every
  list that it keeps names each thing once: children under their parents, nodes at the memories that feed
  them, terminals where branches end, memories in the dispatch table.

  In the table the memories of a type are filed as they are made: under the field and the key by which
  facts are dispatched to them, or apart if there is none. A fact is tried on those filed apart, and on
  those under the key that it has in each field.

  * `DispatchTable`: the table; `Network.dispatchTable`: that of a network.
  * `Network.count_dispatchTable`: a memory is filed once, with its type.
  * `Network.candidates_dispatchTable`: what a fact finds there are its candidates, each once.
  * `Network.Shaped`: all this of a network.
  * `Declarations.shaped_build`: so it is with whatever compiles.
-/
import Mathlib.Data.List.Count
import Mathlib.Data.List.Nodup
import RuleNet.Proofs.Network.Compile
import RuleNet.Proofs.Network.Tree
import RuleNet.Proofs.Value.Equality

namespace RuleNet

/-! ## Slots -/

/-- Values under keys compared by `==`, in the order in which they came. -/
abbrev Slots (κ β : Type) := List (κ × β)

namespace Slots

variable {κ β γ : Type} [BEq κ]

/-- The value under the first key equal to `key`. -/
def find? (key : κ) : Slots κ β → Option β
  | [] => none
  | (k, v) :: rest => if k == key then some v else find? key rest

/-- Change the value under a key, which is `blank` where there is none. -/
def change (key : κ) (blank : β) (f : β → β) : Slots κ β → Slots κ β
  | [] => [(key, f blank)]
  | (k, v) :: rest => if k == key then (k, f v) :: rest else (k, v) :: change key blank f rest

/-- Only equal keys see a change. A key that does not equal itself never sees its own. -/
theorem find?_change [PartialEquivBEq κ] (key other : κ) (blank : β) (f : β → β)
    (slots : Slots κ β) : find? other (change key blank f slots) =
      if key == other then some (f ((find? other slots).getD blank)) else find? other slots := by
  induction slots with
  | nil =>
    simp only [change, find?]
    split <;> rfl
  | cons slot rest ih =>
    obtain ⟨k, v⟩ := slot
    rw [change]
    by_cases hk : (k == key) = true
    · have hiff : (k == other) = (key == other) := by
        rw [Bool.eq_iff_iff]
        exact ⟨fun h => PartialEquivBEq.trans (PartialEquivBEq.symm hk) h,
          fun h => PartialEquivBEq.trans hk h⟩
      rw [if_pos hk, find?, find?, hiff]
      split <;> rfl
    · rw [if_neg hk, find?, find?, ih]
      by_cases ho : (k == other) = true
      · have hno : ¬ (key == other) = true := fun h =>
          hk (PartialEquivBEq.trans ho (PartialEquivBEq.symm h))
        simp only [if_pos ho, if_neg hno]
      · simp only [if_neg ho]

/-- What a change adds to one slot it adds to all of them together. -/
theorem count_flatMap_change [BEq γ] (key : κ) (blank : β) (f : β → β)
    (g : κ × β → List γ) (c : γ) {added : Nat} (hblank : (g (key, f blank)).count c = added)
    (hold : ∀ k v, (k == key) = true → (g (k, f v)).count c = (g (k, v)).count c + added)
    (slots : Slots κ β) :
    ((change key blank f slots).flatMap g).count c = (slots.flatMap g).count c + added := by
  induction slots with
  | nil => rw [change, List.flatMap_singleton, hblank, List.flatMap_nil, List.count_nil, Nat.zero_add]
  | cons slot rest ih =>
    obtain ⟨k, v⟩ := slot
    rw [change]
    split
    · next hk =>
      rw [List.flatMap_cons, List.flatMap_cons, List.count_append, List.count_append, hold k v hk,
        Nat.add_right_comm]
    · rw [List.flatMap_cons, List.flatMap_cons, List.count_append, List.count_append, ih,
        Nat.add_assoc]

end Slots

/-! ## The table -/

/-- The memories of one type: by fields and keys, and those that every fact of the type is tried on. -/
structure TypeTable where
  byField : Slots String (Slots Value (List AlphaId))
  unkeyed : List AlphaId

/-- The memories by their types. -/
abbrev DispatchTable := Slots String TypeTable

namespace TypeTable

def empty : TypeTable := ⟨[], []⟩

/-- File a memory under a key. -/
def fileKey (key : Value) (a : AlphaId) (buckets : Slots Value (List AlphaId)) :
    Slots Value (List AlphaId) :=
  buckets.change key [] fun bucket => bucket ++ [a]

/-- File a memory. -/
def register (table : TypeTable) (a : AlphaId) : Option Dispatch → TypeTable
  | some dispatch =>
    { table with byField := table.byField.change dispatch.field [] (fileKey dispatch.key a) }
  | none => { table with unkeyed := table.unkeyed ++ [a] }

/-- All buckets of the table. -/
def buckets (table : TypeTable) : List (List AlphaId) :=
  table.unkeyed :: table.byField.flatMap fun slot => slot.2.map Prod.snd

/-- The memories that a fact finds. -/
def found (table : TypeTable) (fact : Fact) : List AlphaId :=
  table.unkeyed ++ table.byField.flatMap fun slot =>
    (slot.2.find? (fact.value slot.1).indexKey).getD []

end TypeTable

namespace DispatchTable

/-- File a memory with its type. -/
def register (table : DispatchTable) (a : AlphaId) (alpha : AlphaNode) : DispatchTable :=
  table.change alpha.type .empty fun memories => memories.register a alpha.dispatch

/-- All places in the buckets, with the type that they are for. -/
def places (table : DispatchTable) : List (String × AlphaId) :=
  table.flatMap fun slot => slot.2.buckets.flatten.map fun a => (slot.1, a)

/-- The memories that a fact finds. -/
def found (table : DispatchTable) (fact : Fact) : List AlphaId :=
  ((table.find? fact.type).map fun memories => memories.found fact).getD []

/-- The memories that a fact is tried on, in order. -/
def candidates (table : DispatchTable) (fact : Fact) : List AlphaId :=
  (table.found fact).mergeSort

end DispatchTable

/-- The table of a network: the memories are filed as they were made. -/
def Network.dispatchTable (net : Network) : DispatchTable :=
  (List.range net.alphas.size).foldl (fun table a => match net.alpha? a with
    | some alpha => table.register a alpha
    | none => table) []

/-! ## One memory is filed -/

namespace TypeTable

variable (table : TypeTable) (a b : AlphaId)

theorem count_buckets_register (dispatch : Option Dispatch) :
    (table.register a dispatch).buckets.flatten.count b =
      table.buckets.flatten.count b + [a].count b := by
  cases dispatch with
  | none =>
    simp only [register, buckets, List.flatten_cons, List.count_append]
    exact Nat.add_right_comm ..
  | some dispatch =>
    have hkeys : ∀ slots : Slots Value (List AlphaId),
        ((fileKey dispatch.key a slots).flatMap Prod.snd).count b =
          (slots.flatMap Prod.snd).count b + [a].count b :=
      Slots.count_flatMap_change _ _ _ Prod.snd b rfl fun _ bucket _ => List.count_append
    have hfields := Slots.count_flatMap_change dispatch.field [] (fileKey dispatch.key a)
      (fun slot => slot.2.flatMap Prod.snd) b
      ((hkeys []).trans (Nat.zero_add _)) (fun _ slots _ => hkeys slots) table.byField
    have hflat : ∀ fields : Slots String (Slots Value (List AlphaId)),
        (fields.flatMap fun slot => slot.2.map Prod.snd).flatten =
          fields.flatMap fun slot => slot.2.flatMap Prod.snd := fun fields => by
      induction fields with
      | nil => rfl
      | cons slot rest ih =>
        rw [List.flatMap_cons, List.flatten_append, ih]
        rfl
    simp only [register, buckets, List.flatten_cons, List.count_append, hflat, hfields, Nat.add_assoc]

theorem count_found_register (dispatch : Option Dispatch) (fact : Fact) :
    ((table.register a dispatch).found fact).count b = (table.found fact).count b +
      if (match dispatch with
        | some dispatch => dispatch.key == (fact.value dispatch.field).indexKey
        | none => true) then [a].count b else 0 := by
  cases dispatch with
  | none =>
    simp only [register, found, List.count_append, if_true]
    exact Nat.add_right_comm ..
  | some dispatch =>
    have hkeys : ∀ slots : Slots Value (List AlphaId), ∀ field, (field == dispatch.field) = true →
        ((Slots.find? (fact.value field).indexKey (fileKey dispatch.key a slots)).getD []).count b =
          ((Slots.find? (fact.value field).indexKey slots).getD []).count b +
            if dispatch.key == (fact.value dispatch.field).indexKey then [a].count b else 0 := by
      intro slots field hfield
      obtain rfl := beq_iff_eq.1 hfield
      rw [fileKey, Slots.find?_change]
      split
      · exact List.count_append
      · rfl
    have hfields := Slots.count_flatMap_change dispatch.field [] (fileKey dispatch.key a)
      (fun slot => (Slots.find? (fact.value slot.1).indexKey slot.2).getD []) b
      ((hkeys [] _ (beq_self_eq_true dispatch.field)).trans (Nat.zero_add _))
      (fun field slots hfield => hkeys slots field hfield) table.byField
    simp only [register, found, List.count_append, hfields, Nat.add_assoc]

end TypeTable

namespace DispatchTable

variable (table : DispatchTable) (a b : AlphaId) (alpha : AlphaNode)

theorem count_places_register (type : String) :
    (table.register a alpha).places.count (type, b) =
      table.places.count (type, b) + if alpha.type == type then [a].count b else 0 := by
  have hplaces : ∀ (as : List AlphaId) (t : String),
      (as.map fun a => (t, a)).count (type, b) = if t == type then as.count b else 0 := by
    intro as t
    split
    · next ht =>
      obtain rfl := beq_iff_eq.1 ht
      exact List.count_map_of_injective as _ (fun _ _ h => (Prod.mk.inj h).2) b
    · next ht =>
      refine List.count_eq_zero.2 fun h => ht (beq_iff_eq.2 ?_)
      obtain ⟨_, -, heq⟩ := List.mem_map.1 h
      exact (Prod.mk.inj heq).1
  refine Slots.count_flatMap_change _ _ _ (fun slot : String × TypeTable =>
    slot.2.buckets.flatten.map fun a => (slot.1, a)) (type, b) ?_ (fun t memories ht => ?_) table
  · rw [hplaces, TypeTable.count_buckets_register]
    exact if_congr Iff.rfl (Nat.zero_add _) rfl
  · obtain rfl := beq_iff_eq.1 ht
    rw [hplaces, hplaces, TypeTable.count_buckets_register]
    split <;> rfl

theorem count_found_register (fact : Fact) : ((table.register a alpha).found fact).count b =
    (table.found fact).count b + if alpha.admits fact then [a].count b else 0 := by
  rw [found, register, Slots.find?_change, AlphaNode.admits, found]
  by_cases htype : (alpha.type == fact.type) = true
  · rw [if_pos htype, htype, Bool.true_and]
    cases table.find? fact.type with
    | none =>
      refine (TypeTable.count_found_register .empty a b alpha.dispatch fact).trans ?_
      rfl
    | some memories => exact memories.count_found_register a b alpha.dispatch fact
  · rw [if_neg htype, Bool.not_eq_true] at *
    rw [htype, Bool.false_and]
    rfl

end DispatchTable

/-! ## All memories are filed -/

namespace Network

variable (net : Network)

/-- What each memory adds to a count is added by all memories that are filed. -/
theorem count_dispatch {γ : Type} [BEq γ] (view : DispatchTable → List γ) (c : γ)
    (b : AlphaId) (p : AlphaNode → Bool)
    (hview : ∀ table a alpha, (view (DispatchTable.register table a alpha)).count c =
      (view table).count c + if p alpha then [a].count b else 0)
    (hnone : (view []).count c = 0) :
    (view net.dispatchTable).count c =
      ((List.range net.alphas.size).filter fun a => (net.alpha? a).any p).count b := by
  have hall : ∀ (as : List AlphaId) (table : DispatchTable),
      (view (as.foldl (fun table a => match net.alpha? a with
        | some alpha => table.register a alpha
        | none => table) table)).count c = (view table).count c +
          (as.filter fun a => (net.alpha? a).any p).count b := by
    intro as
    induction as with
    | nil => exact fun table => rfl
    | cons a rest ih =>
      intro table
      rw [List.foldl_cons, ih, List.filter_cons]
      cases net.alpha? a with
      | none => rfl
      | some alpha =>
        dsimp only [Option.any_some]
        rw [hview]
        split
        · rw [Nat.add_assoc, ← List.count_append]
          rfl
        · rfl
  rw [dispatchTable, hall, hnone, Nat.zero_add]

/-- Every memory has one place in the table, with its type. -/
theorem count_dispatchTable (type : String) (a : AlphaId) :
    net.dispatchTable.places.count (type, a) =
      if (net.alpha? a).map AlphaNode.type = some type then 1 else 0 := by
  rw [net.count_dispatch DispatchTable.places (type, a) a (·.type == type)
    (fun table b alpha => table.count_places_register b a alpha type) rfl,
    List.Nodup.count (List.nodup_range.filter _)]
  refine if_congr ?_ rfl rfl
  rw [List.mem_filter, List.mem_range, Option.any_eq_true, Option.map_eq_some_iff]
  constructor
  · rintro ⟨-, alpha, ha, htype⟩
    exact ⟨alpha, ha, beq_iff_eq.1 htype⟩
  · rintro ⟨alpha, ha, htype⟩
    exact ⟨(Array.getElem?_eq_some_iff.1 ha).1, alpha, ha, beq_iff_eq.2 htype⟩

/-- What a fact finds in the table are its candidates. -/
theorem candidates_dispatchTable (fact : Fact) :
    net.dispatchTable.candidates fact = net.candidates fact := by
  have hperm : (net.dispatchTable.found fact).Perm (net.candidates fact) :=
    List.perm_iff_count.2 fun a => net.count_dispatch (fun table => table.found fact) a a
      (·.admits fact) (fun table b alpha => table.count_found_register b a alpha fact) rfl
  have hle : (net.candidates fact).Pairwise (· ≤ ·) :=
    List.Pairwise.filter _ (List.pairwise_lt_range.imp Nat.le_of_lt)
  have hsorted : ((net.dispatchTable.found fact).mergeSort fun a b => decide (a ≤ b)).Pairwise
      fun a b => decide (a ≤ b) = true := by
    refine List.pairwise_mergeSort (fun a b c hab hbc => ?_) (fun a b => ?_) _
    · exact decide_eq_true (Nat.le_trans (of_decide_eq_true hab) (of_decide_eq_true hbc))
    · simp [Nat.le_total a b]
  exact ((List.mergeSort_perm _ _).trans hperm).eq_of_pairwise
    (fun a b _ _ hab hba => Nat.le_antisymm hab hba) (hsorted.imp of_decide_eq_true) hle

theorem nodup_candidates (fact : Fact) : (net.candidates fact).Nodup := List.nodup_range.filter _

end Network

/-! ## The shape -/

namespace Network

/-- A network is a forest, and its lists are complete and without repetition. -/
structure Shaped (net : Network) : Prop where
  /-- A node comes after its parent and is one step deeper; without a parent it is at depth 1. -/
  depth : ∀ {n node}, net.node? n = some node → match node.parent with
    | some p => p < n ∧ ∃ above, net.node? p = some above ∧ node.depth = above.depth + 1
    | none => node.depth = 1
  children : ∀ p n, (net.childrenOf p).count n =
    if (net.node? n).map BetaNode.parent = some (some p) then 1 else 0
  rootChildren : ∀ n, net.rootChildren.count n =
    if (net.node? n).map BetaNode.parent = some none then 1 else 0
  /-- A memory feeds the nodes whose kind reads it. -/
  successors : ∀ a n, (net.successorsOf a).count n =
    if (net.kind? n).bind NodeKind.alpha? = some a then 1 else 0
  /-- The deepest first, and of one depth the earliest. -/
  deepestFirst : ∀ a, (net.successorsOf a).Pairwise fun m n =>
    net.depthOf n < net.depthOf m ∨ (net.depthOf m = net.depthOf n ∧ m < n)
  terminals : ∀ n τ, (net.terminalsOf n).count τ =
    if (net.terminal? τ).map Terminal.node = some (some n) then 1 else 0
  rootTerminals : ∀ τ, net.rootTerminals.count τ =
    if (net.terminal? τ).map Terminal.node = some none then 1 else 0
  /-- A terminal that is not at the root is at a node. -/
  ends : ∀ {τ terminal n}, net.terminal? τ = some terminal → terminal.node = some n →
    ∃ node, net.node? n = some node
  /-- A memory is in one bucket, which is one of its type. -/
  dispatch : ∀ type a, net.dispatchTable.places.count (type, a) =
    if (net.alpha? a).map AlphaNode.type = some type then 1 else 0
  /-- So what a fact finds in the buckets it finds once. -/
  candidates : ∀ fact, net.dispatchTable.candidates fact = net.candidates fact ∧
    (net.candidates fact).Nodup
  /-- Members can be looked up where a node looks them up. -/
  indexed : ∀ {n kind feed index}, net.kind? n = some kind → kind.feed? = some feed →
    feed.index = some index →
    ∃ alpha, net.alpha? feed.alpha = some alpha ∧ index.field ∈ alpha.indexedFields

variable {net : Network}

/-- A list without repetition names each of its members once. -/
theorem count_eq_of_mem_iff {as : List Nat} {a : Nat} {p : Prop} [Decidable p] (h : as.Nodup)
    (hmem : a ∈ as ↔ p) : as.count a = if p then 1 else 0 := by
  rw [h.count]
  exact if_congr hmem rfl rfl

/-- The lists of a network name each thing once if they agree with its nodes. -/
theorem WellFormed.shaped (W : net.WellFormed) (hsorted : ∀ a, (net.successorsOf a).Pairwise
    fun m n => net.reachedBy m n = true) : net.Shaped where
  depth {n node} hn := by
    split
    · next hp => exact W.parent hn hp
    · next hp => exact W.top hn hp
  children p n := count_eq_of_mem_iff (W.nodup_children p) (W.children.trans (by simp))
  rootChildren n := count_eq_of_mem_iff W.nodup_rootChildren (W.rootChildren.trans (by simp))
  successors a n := count_eq_of_mem_iff (W.nodup_successors a) (W.successors.trans (by
    simp [NodeKind.alpha?, Option.bind_eq_some_iff]))
  deepestFirst a := by
    refine (hsorted a).imp₂ (fun m n hreached hne => ?_) (W.nodup_successors a)
    rcases reachedBy_iff.1 hreached with hlt | ⟨heq, hle⟩
    · exact .inl hlt
    · exact .inr ⟨heq, Nat.lt_of_le_of_ne hle hne⟩
  terminals n τ := count_eq_of_mem_iff (W.nodup_terminals n) (W.terminals.trans (by simp))
  rootTerminals τ := count_eq_of_mem_iff W.nodup_rootTerminals (W.rootTerminals.trans (by simp))
  ends {τ terminal n} hτ hn := by
    have hmem : τ ∈ net.terminalsOf n := W.terminals.2 ⟨terminal, hτ, hn⟩
    rw [terminalsOf] at hmem
    cases hnode : net.node? n with
    | none =>
      rw [hnode] at hmem
      cases hmem
    | some node => exact ⟨node, rfl⟩
  dispatch := net.count_dispatchTable
  candidates fact := ⟨net.candidates_dispatchTable fact, net.nodup_candidates fact⟩
  indexed hk hf hi := by
    obtain ⟨alpha, ha, hfields⟩ := W.feed hk hf
    exact ⟨alpha, ha, hfields _ hi⟩

end Network

/-- The network of a rule base. -/
theorem Declarations.shaped_build {declarations : Declarations} {base : RuleBase}
    (h : declarations.build = .ok base) : base.network.Shaped := by
  refine (wellFormed_build h).shaped fun a => ?_
  obtain ⟨-, rfl⟩ := build_eq h
  rw [Network.successorsOf_finish]
  -- putting memories in order changes no node
  show List.Pairwise (fun m n => declarations.assemble.network.reachedBy m n = true) _
  exact Network.pairwise_reachedBy _

end RuleNet
