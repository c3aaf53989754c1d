/-
  How a token arrives at a node.

  * `Ledger.Awaits`: what is due for a left token that has just arrived.
  * `Arrived`, `Sound.arrive`: a node files the token and all that goes with it, and says what is due.
-/
import RuleNet.Proofs.Matching.Stock
import RuleNet.Proofs.Matching.Writes

namespace RuleNet

open Matching (Extension contribution)

/-! ## Arriving -/

/-- What is due for a left token that has just arrived: one token for each extension settles it. -/
def Ledger.Awaits (x : Ledger) (store : WorkingMemory) (members : AlphaId → IdSet) (n : NodeId)
    (left : TokenId) (μ : Match) (r : LeftRecord) (es : List Extension) (kind : NodeKind) : Prop :=
  match kind with
  | .join feed => ∃ facts : List Handle, es = facts.map Extension.fact ∧ facts.Nodup ∧
    ∀ made : TokenId → Extension → Prop,
      (∀ h, (∃ t, made t (.fact h)) ↔ h ∈ facts) →
      (∀ t t' h, made t (.fact h) → made t' (.fact h) → t = t') →
      x.Settled store members n left μ r made (.join feed)
  | kind => ∃ e : Option Extension, es = e.toList ∧ r.output = none ∧
    (∀ e', e = some e' → kind.Carries e') ∧ ∀ output made, Passes made output e →
      x.Settled store members n left μ { r with output } made kind

namespace Matching

section
variable {net : Network} {store : WorkingMemory} {m : Matching} {n : NodeId} {kind : NodeKind}
  {left : TokenId}

theorem writes_fileLeft : Writes (.at n left) m (m.fileLeft store n kind left) := by
  refine Writes.setNode fun left' hne => ?_
  have hne' : ¬ left = left' := fun e => hne e.symm
  cases kind.index? with
  | none => simp [NodeMemory.about, Std.ExtTreeSet.contains_insert, hne']
  | some index =>
    simp [NodeMemory.about, Std.ExtTreeSet.contains_insert, Std.ExtTreeMap.getElem?_insert, hne']

theorem filed_fileLeft {unlisted : Handle → Prop} (F : (m.node n).Filed unlisted)
    (hblank : m.about n left = .blank) :
    ((m.fileLeft store n kind left).node n).Filed unlisted := by
  have hkey : (m.node n).leftKeys[left]? = none := congrArg LeftRecord.key hblank
  have F' := F.congr ((m.node n).left.insert left) (m.node n).outputs
  rw [fileLeft, node_setNode, if_pos rfl]
  cases kind.index? with
  | none => exact F'
  | some index => exact F'.fileKey hkey ((m.view store left).value index.place).indexKey

theorem about_fileLeft (hblank : m.about n left = .blank) :
    (m.fileLeft store n kind left).about n left =
      ⟨true, kind.index?.map fun index => ((m.view store left).value index.place).indexKey,
        none, none, none, false⟩ := by
  have hkey : (m.node n).leftKeys[left]? = none := congrArg LeftRecord.key hblank
  have hfound : (m.node n).found[left]? = none := congrArg LeftRecord.found hblank
  have hacc : (m.node n).accumulators[left]? = none := congrArg LeftRecord.accumulator hblank
  have hout : (m.node n).outputs[left]? = none := congrArg LeftRecord.output hblank
  have hmarked : m.isMarked n left = false := congrArg LeftRecord.marked hblank
  rw [fileLeft, about_setNode, if_pos rfl]
  cases kind.index? with
  | none => simp [NodeMemory.about, hkey, hfound, hacc, hout, hmarked]
  | some index => simp [NodeMemory.about, hfound, hacc, hout, hmarked]

end

end Matching

section
variable {net : Network} {store : WorkingMemory} {x : Ledger} {m : Matching} {n : NodeId}
  {node : BetaNode} {left : TokenId}

/-- A left token that has been filed with a node, and the facts that the node finds for it. -/
theorem Sound.fileLeft (W : net.WellFormed) (S : Sound net store x m) (K : Stocked net store m)
    (hn : net.node? n = some node) {kind : NodeKind} (hkind : node.kind = kind)
    (hl : m.LiveAt left node.parent) (hb : x.busy n left) (hblank : m.about n left = .blank) :
    Writes (.at n left) m (m.fileLeft store n kind left) ∧
    Sound net store x (m.fileLeft store n kind left) ∧
    (m.fileLeft store n kind left).about n left =
      ⟨true, kind.feed?.bind fun feed => (m.matchOf left).keyFor store feed,
        none, none, none, false⟩ ∧
    ∀ feed, kind.feed? = some feed → ∀ h,
      h ∈ (m.fileLeft store n kind left).partners store feed left ↔
        h ∈ m.members feed.alpha ∧ (m.matchOf left).accepts store feed h = true := by
  have hw : Writes (.at n left) m (m.fileLeft store n kind left) :=
    Matching.writes_fileLeft
  have S' : Sound net store x (m.fileLeft store n kind left) := by
    refine hw.sound_at S ⟨node, hn, hl⟩ hb fun n' => ?_
    exact S.nodes_setNode (Matching.filed_fileLeft (S.nodes n) hblank) n'
  obtain ⟨o, ho, hnode⟩ := hl
  refine ⟨hw, S', ?_, fun feed hf h => ?_⟩
  · rw [Matching.about_fileLeft hblank, Matching.view_eq W S.forest ho, NodeKind.index?]
    cases kind.feed? with
    | none => rfl
    | some feed => rfl
  · have ho' : (m.fileLeft store n kind left).origin? left = some o := by
      rw [Matching.origin?_congr hw.tokens]
      exact ho
    have hk : net.kind? n = some kind := hkind ▸ Network.kind?_eq hn
    rw [(K.of_alphas hw.alphas).mem_partners W S'.forest hk hf ho', hw.members,
      Matching.matchOf_congr hw.tokens]

/-- A node lists a left token under no facts if it found none for it. -/
theorem Recorded.not_listed (R : Recorded net x m) (hfound : (m.about n left).found = none)
    (hacc : (m.about n left).accumulator = none) (h : Handle) :
    left ∉ (m.node n).foundBy.get h := fun hin => by
  rcases ((R.nodes n).listed.1 hin).2 with ⟨set, hset, -⟩ | ⟨acc, hacc', -⟩
  · exact Option.some_ne_none _ (hset.symm.trans hfound)
  · exact Option.some_ne_none _ (hacc'.symm.trans hacc)

/-- A node that finds facts for a left token notes them. -/
theorem Sound.fileFound (S : Sound net store x m) (hl : m.LeftOf net n left) (hb : x.busy n left)
    (hfound : (m.about n left).found = none) (hacc : (m.about n left).accumulator = none)
    (hun : ∀ h, ¬ x.unlisted n h) (facts : List Handle) :
    Sound net store x (m.fileFound n left facts) ∧
    Writes (.at n left) m (m.fileFound n left facts) ∧
    (m.fileFound n left facts).about n left =
      { m.about n left with found := some (facts.foldl (fun set h => set.insert h) ∅) } := by
  refine S.putFound hl hb hacc (fun h => ?_) (fun left' h hne => ?_) rfl
  · rw [Index.mem_get_fileAll, IdSet.mem_insertAll]
    simp [S.not_listed hfound hacc h, hun h]
  · have hne' : ¬ left = left' := fun e => hne e.symm
    rw [Index.mem_get_fileAll]
    simp [hne']

/-- A node that folds facts for a left token notes them. -/
theorem Sound.fileAccumulator (S : Sound net store x m) (hl : m.LeftOf net n left)
    (hb : x.busy n left) (hfound : (m.about n left).found = none)
    (hacc : (m.about n left).accumulator = none) (hun : ∀ h, ¬ x.unlisted n h)
    (acc : Accumulator) :
    Sound net store x (m.fileAccumulator n left acc) ∧
    Writes (.at n left) m (m.fileAccumulator n left acc) ∧
    (m.fileAccumulator n left acc).about n left =
      { m.about n left with accumulator := some acc } := by
  refine S.putAccumulator hl hb hfound (fun h => ?_) (fun left' h hne => ?_) rfl
  · rw [Index.mem_get_fileAll, Accumulator.mem_contributors]
    simp [S.not_listed hfound hacc h, hun h]
  · have hne' : ¬ left = left' := fun e => hne e.symm
    rw [Index.mem_get_fileAll]
    simp [hne']

/-- A left token that has been filed with a node with all facts that go with it. -/
theorem Sound.fileFacts (W : net.WellFormed) (S : Sound net store x m) (K : Stocked net store m)
    (hn : net.node? n = some node) {kind : NodeKind} (hkind : node.kind = kind)
    (hl : m.LiveAt left node.parent) (hb : x.busy n left) (hblank : m.about n left = .blank)
    (hun : ∀ h, ¬ x.unlisted n h) {feed : Feed} (hf : kind.feed? = some feed) {facts : List Handle}
    (hfacts : (m.fileLeft store n kind left).partners store feed left = facts) :
    Writes (.at n left) m ((m.fileLeft store n kind left).fileFound n left facts) ∧
    Sound net store x ((m.fileLeft store n kind left).fileFound n left facts) ∧
    ∃ set : IdSet, set.isEmpty = facts.isEmpty ∧
      ((m.fileLeft store n kind left).fileFound n left facts).about n left =
        ⟨true, (m.matchOf left).keyFor store feed, some set, none, none, false⟩ ∧
      x.Covers n store (m.members feed.alpha) (m.matchOf left) feed (· ∈ set) := by
  obtain ⟨hw, S', habout, hpart⟩ := S.fileLeft W K hn hkind hl hb hblank
  rw [hf, Option.bind_some] at habout
  have hl' : (m.fileLeft store n kind left).LeftOf net n left := by
    rw [Matching.leftOf_congr hw.tokens]
    exact ⟨node, hn, hl⟩
  obtain ⟨S'', hw', habout'⟩ := S'.fileFound hl' hb (by rw [habout]) (by rw [habout]) hun facts
  refine ⟨hw.trans hw', S'', _, IdSet.isEmpty_insertAll facts, ?_, .of_iff fun h => ?_⟩
  · rw [habout', habout]
  · rw [IdSet.mem_insertAll, or_iff_right Std.ExtTreeSet.not_mem_empty, ← hfacts]
    exact hpart feed hf h

/-- A left token that has been filed with a node with what its facts contribute. -/
theorem Sound.fileContributions (W : net.WellFormed) (S : Sound net store x m)
    (K : Stocked net store m) (hn : net.node? n = some node) {kind : NodeKind}
    (hkind : node.kind = kind) (hl : m.LiveAt left node.parent) (hb : x.busy n left)
    (hblank : m.about n left = .blank) (hun : ∀ h, ¬ x.unlisted n h) {feed : Feed}
    (hf : kind.feed? = some feed) {fold : Fold} {acc : Accumulator}
    (hacc : Accumulator.ofList fold (((m.fileLeft store n kind left).partners store feed left).map
      fun h => (h, contribution store fold h)) = acc) :
    Writes (.at n left) m ((m.fileLeft store n kind left).fileAccumulator n left acc) ∧
    Sound net store x ((m.fileLeft store n kind left).fileAccumulator n left acc) ∧
    ((m.fileLeft store n kind left).fileAccumulator n left acc).about n left =
      ⟨true, (m.matchOf left).keyFor store feed, none, some acc, none, false⟩ ∧
    x.Covers n store (m.members feed.alpha) (m.matchOf left) feed
      (fun h => acc.contains h = true) ∧
    acc.Folds store fold := by
  obtain ⟨hw, S', habout, hpart⟩ := S.fileLeft W K hn hkind hl hb hblank
  rw [hf, Option.bind_some] at habout
  have hl' : (m.fileLeft store n kind left).LeftOf net n left := by
    rw [Matching.leftOf_congr hw.tokens]
    exact ⟨node, hn, hl⟩
  obtain ⟨hfold, hreg, hcontrib⟩ := Accumulator.ofList_spec fold (contribution store fold)
    ((m.fileLeft store n kind left).partners store feed left)
  rw [hacc] at hfold hreg hcontrib
  obtain ⟨S'', hw', habout'⟩ := S'.fileAccumulator hl' hb (by rw [habout]) (by rw [habout]) hun acc
  refine ⟨hw.trans hw', S'', ?_, .of_iff fun h => ?_, hfold, hreg, fun {h v} hv => ?_⟩
  · rw [habout', habout]
  · rw [Accumulator.contains_iff, hcontrib, ← hpart feed hf h]
    split
    · next hm => exact ⟨fun _ => hm, fun _ => ⟨_, rfl⟩⟩
    · next hm => exact ⟨fun ⟨v, hv⟩ => absurd hv (Option.some_ne_none v).symm, fun h => absurd h hm⟩
  · rw [hcontrib] at hv
    split at hv
    · exact (Option.some.inj hv).symm
    · cases hv

/-- What is due at a node other than a join is one token at most. -/
theorem Ledger.Awaits.atMostOne {members : AlphaId → IdSet} {μ : Match} {r : LeftRecord}
    {kind : NodeKind} (hjoin : kind.isJoin = false) {e : Option Extension}
    (hout : r.output = none) (hcarries : ∀ e', e = some e' → kind.Carries e')
    (hs : ∀ output made, Passes made output e →
      x.Settled store members n left μ { r with output } made kind) :
    x.Awaits store members n left μ r e.toList kind := by
  cases kind with
  | join feed => cases hjoin
  | absent feed => exact ⟨e, rfl, hout, hcarries, hs⟩
  | present feed => exact ⟨e, rfl, hout, hcarries, hs⟩
  | accumulate feed fold having => exact ⟨e, rfl, hout, hcarries, hs⟩
  | predicate p scope => exact ⟨e, rfl, hout, hcarries, hs⟩

/-- A node has noted what goes with a left token and said what is due for it. -/
structure Arrived (net : Network) (store : WorkingMemory) (x : Ledger) (m : Matching) (n : NodeId)
    (left : TokenId) (kind : NodeKind) (out : List Extension × Matching) : Prop where
  writes : Writes (.at n left) m out.2
  sound : Sound net store x out.2
  due : x.Awaits store m.members n left (m.matchOf left) (out.2.about n left) out.1 kind

end

/-! ## One kind of node each -/

section
variable {net : Network} {store : WorkingMemory} {x : Ledger} {m : Matching} {n : NodeId}
  {node : BetaNode} {left : TokenId} (W : net.WellFormed) (S : Sound net store x m)
  (K : Stocked net store m) (hn : net.node? n = some node) (hl : m.LiveAt left node.parent)
  (hb : x.busy n left) (hblank : m.about n left = .blank)
include W S K hn hl hb hblank

theorem Sound.arrive_join {feed : Feed} (hkind : node.kind = .join feed) :
    Arrived net store x m n left (.join feed) (m.arrive net store n left) := by
  have hk := Network.kind?_eq hn
  obtain ⟨hw, S', habout, hpart⟩ := S.fileLeft W K hn hkind hl hb hblank
  have harrive : m.arrive net store n left =
      (((m.fileLeft store n (.join feed) left).partners store feed left).map Extension.fact,
        m.fileLeft store n (.join feed) left) := by
    simp only [Matching.arrive, hk, hkind]
  rw [harrive]
  refine ⟨hw, S', _, rfl, Stocked.nodup_partners _ feed left, fun made hmade hone => ?_⟩
  refine ⟨habout, .of_iff fun h => ?_, fun t t' h ht ht' => Or.inl (hone t t' h ht ht')⟩
  exact (hmade h).trans (hpart feed rfl h)

theorem Sound.arrive_absent (hun : ∀ h, ¬ x.unlisted n h) {feed : Feed}
    (hkind : node.kind = .absent feed) :
    Arrived net store x m n left (.absent feed) (m.arrive net store n left) := by
  have hk := Network.kind?_eq hn
  generalize hfacts : (m.fileLeft store n (.absent feed) left).partners store feed left = facts
  have harrive : m.arrive net store n left =
      ((if facts.isEmpty then some .nothing else none).toList,
        (m.fileLeft store n (.absent feed) left).fileFound n left facts) := by
    simp only [Matching.arrive, hk, hkind, hfacts, apply_ite Option.toList, Option.toList_some,
      Option.toList_none]
  obtain ⟨hw, S', set, hset, habout, hc⟩ := S.fileFacts W K hn hkind hl hb hblank hun rfl hfacts
  rw [harrive]
  refine ⟨hw, S', .atMostOne rfl (by rw [habout]) (fun e he => ?_) fun output made hp => ?_⟩
  · exact Option.some.inj (Option.ite_none_right_eq_some.1 he).2.symm
  · rw [habout]
    exact ⟨set, output, rfl, hc, hset ▸ hp⟩

theorem Sound.arrive_present (hun : ∀ h, ¬ x.unlisted n h) {feed : Feed}
    (hkind : node.kind = .present feed) :
    Arrived net store x m n left (.present feed) (m.arrive net store n left) := by
  have hk := Network.kind?_eq hn
  generalize hfacts : (m.fileLeft store n (.present feed) left).partners store feed left = facts
  have harrive : m.arrive net store n left =
      ((if facts.isEmpty then none else some .nothing).toList,
        (m.fileLeft store n (.present feed) left).fileFound n left facts) := by
    simp only [Matching.arrive, hk, hkind, hfacts, apply_ite Option.toList, Option.toList_some,
      Option.toList_none]
  obtain ⟨hw, S', set, hset, habout, hc⟩ := S.fileFacts W K hn hkind hl hb hblank hun rfl hfacts
  rw [harrive]
  refine ⟨hw, S', .atMostOne rfl (by rw [habout]) (fun e he => ?_) fun output made hp => ?_⟩
  · exact Option.some.inj (Option.ite_none_left_eq_some.1 he).2.symm
  · rw [habout]
    exact ⟨set, output, rfl, hc, hset ▸ hp⟩

/-- Results are due at once, or they wait for the end of an update. -/
theorem Sound.arrive_accumulate (hun : ∀ h, ¬ x.unlisted n h) (hagree : ∀ a, x.agree a a)
    {feed : Feed} {fold : Fold} {having : Option (Operator × TestOperand Place)}
    (hkind : node.kind = .accumulate feed fold having) :
    Arrived net store x m n left (.accumulate feed fold having)
      (m.arrive net store n left) := by
  have hk := Network.kind?_eq hn
  generalize hacc : Accumulator.ofList fold
    (((m.fileLeft store n (.accumulate feed fold having) left).partners store feed left).map
      fun h => (h, contribution store fold h)) = acc
  obtain ⟨hw, S', habout, hc, hfolds⟩ := S.fileContributions W K hn hkind hl hb hblank hun rfl hacc
  generalize hm' : (m.fileLeft store n (.accumulate feed fold having) left).fileAccumulator
    n left acc = m' at hw S' habout
  cases hd : m'.deferred with
  | some dirty =>
    have hl' : m'.LeftOf net n left := by
      rw [Matching.leftOf_congr hw.tokens]
      exact ⟨node, hn, hl⟩
    have harrive : m.arrive net store n left =
        ([], { m' with deferred := some (dirty.insert (n, left)) }) := by
      simp only [Matching.arrive, hk, hkind, hacc, hm', hd]
    obtain ⟨S'', habout'⟩ := S'.mark hl' hb hd
    rw [harrive]
    refine ⟨hw.trans (Writes.mark hd), S'', none, rfl, by rw [habout', habout],
      fun e he => absurd he.symm (Option.some_ne_none e), fun output made hp => ?_⟩
    rw [habout', habout]
    exact ⟨acc, output, true, none, rfl, hc, hfolds, hp, Or.inl rfl⟩
  | none =>
    obtain ⟨o, ho, -⟩ := hl
    have hgated : m'.gatedResult? store having left acc =
        (m.matchOf left).gated? store having acc := by
      have ho' : m'.origin? left = some o := by
        rw [Matching.origin?_congr hw.tokens]
        exact ho
      rw [Matching.gatedResult?_eq W S'.forest ho', Matching.matchOf_congr hw.tokens]
    have harrive : m.arrive net store n left =
        ((((m.matchOf left).gated? store having acc).map Extension.result).toList, m') := by
      simp only [Matching.arrive, hk, hkind, hacc, hm', hd, hgated, Option.toList_map]
    rw [harrive]
    refine ⟨hw, S', .atMostOne rfl (by rw [habout]) (fun e he => ?_) fun output made hp => ?_⟩
    · obtain ⟨v, -, hv⟩ := Option.map_eq_some_iff.1 he
      exact ⟨v, hv.symm⟩
    · rw [habout]
      exact ⟨acc, output, false, _, rfl, hc, hfolds, hp, Or.inr (Or.inr (hagree _))⟩

theorem Sound.arrive_predicate {p : Predicate} {scope : List (String × Place)}
    (hkind : node.kind = .predicate p scope) :
    Arrived net store x m n left (.predicate p scope) (m.arrive net store n left) := by
  have hk := Network.kind?_eq hn
  obtain ⟨hw, S', habout, -⟩ := S.fileLeft W K hn hkind hl hb hblank
  obtain ⟨o, ho, -⟩ := hl
  have hbinding : (m.fileLeft store n (.predicate p scope) left).binding store scope left =
      (m.matchOf left).binding store scope := by
    have ho' : (m.fileLeft store n (.predicate p scope) left).origin? left = some o := by
      rw [Matching.origin?_congr hw.tokens]
      exact ho
    rw [Matching.binding_eq W S'.forest ho', Matching.matchOf_congr hw.tokens]
  have harrive : m.arrive net store n left =
      ((if p.holds ((m.matchOf left).binding store scope) then some .nothing else none).toList,
        m.fileLeft store n (.predicate p scope) left) := by
    simp only [Matching.arrive, hk, hkind, hbinding, apply_ite Option.toList, Option.toList_some,
      Option.toList_none]
  rw [harrive]
  refine ⟨hw, S', .atMostOne rfl (by rw [habout]) (fun e he => ?_) fun output made hp => ?_⟩
  · exact Option.some.inj (Option.ite_none_right_eq_some.1 he).2.symm
  · rw [habout]
    exact ⟨output, rfl, hp⟩

/-- A token arrives at a node, which then knows what goes with it and says what is due. -/
theorem Sound.arrive (hun : ∀ h, ¬ x.unlisted n h) (hagree : ∀ a, x.agree a a) :
    Arrived net store x m n left node.kind (m.arrive net store n left) := by
  cases hkind : node.kind with
  | join feed => exact S.arrive_join W K hn hl hb hblank hkind
  | absent feed => exact S.arrive_absent W K hn hl hb hblank hun hkind
  | present feed => exact S.arrive_present W K hn hl hb hblank hun hkind
  | accumulate feed fold having => exact S.arrive_accumulate W K hn hl hb hblank hun hagree hkind
  | predicate p scope => exact S.arrive_predicate W K hn hl hb hblank hkind

end

end RuleNet
