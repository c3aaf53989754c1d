/-
  Whatever a matching refers to is there already.

  A token is younger than the one above it and older than those below it, and nodes note nothing of tokens
  that are yet to be made. So it stays with everything that is noted, made or taken away.

  * `NodeMemory.Under`: a node notes only tokens of less than a number.
  * `Matching.Layered`: so all nodes do, and tokens are between those above and those below them.
  * `Matching.Layered.addToken`, `Matching.Layered.strip`, `Matching.Layered.arrive`: it stays so.
-/
import RuleNet.Proofs.Matching.Prune
import RuleNet.Proofs.Matching.Shelves
import RuleNet.Proofs.Matching.Task

namespace RuleNet

open Matching (Extension)

/-! ## What nodes note -/

/-- The tokens that a node knows as left tokens have numbers below a bound. -/
structure NodeMemory.Under (memory : NodeMemory) (bound : TokenId) : Prop where
  left : ∀ {t}, t ∈ memory.left → t < bound
  filed : ∀ {b}, b ∈ memory.leftIndex → ∀ t ∈ b.2, t < bound
  found : ∀ {h t}, t ∈ memory.foundBy.get h → t < bound

namespace NodeMemory.Under

variable {memory : NodeMemory} {bound bound' left : TokenId} {h : Handle}

theorem empty : NodeMemory.empty.Under bound where
  left ht := absurd ht Std.ExtTreeSet.not_mem_empty
  filed hb := nomatch hb
  found {h t} ht := by
    have hget : Index.get NodeMemory.empty.foundBy h = ∅ := by
      rw [Index.get, NodeMemory.empty, Std.ExtTreeMap.getElem?_empty]
      rfl
    rw [hget] at ht
    exact absurd ht Std.ExtTreeSet.not_mem_empty

theorem mono (U : memory.Under bound) (hle : bound ≤ bound') : memory.Under bound' where
  left ht := Nat.lt_of_lt_of_le (U.left ht) hle
  filed hb t ht := Nat.lt_of_lt_of_le (U.filed hb t ht) hle
  found ht := Nat.lt_of_lt_of_le (U.found ht) hle

theorem of_get (U : memory.Under bound) {key : Value} {t : TokenId}
    (ht : t ∈ memory.leftIndex.get key) : t < bound := by
  obtain ⟨b, hb, ht⟩ := Buckets.mem_of_mem_get ht
  exact U.filed hb t ht

/-- What is found for a left token may change. -/
theorem note (U : memory.Under bound) (hlt : left < bound) (facts : List Handle)
    (found : Std.ExtTreeMap TokenId IdSet) (accumulators : Std.ExtTreeMap TokenId Accumulator) :
    NodeMemory.Under { memory with
      found, accumulators
      foundBy := facts.foldl (fun index h => index.file h left) memory.foundBy } bound where
  left := U.left
  filed := U.filed
  found ht := (Index.mem_get_fileAll.1 ht).elim (fun h => h.2 ▸ hlt) U.found

theorem erase (U : memory.Under bound) (h : Handle) :
    NodeMemory.Under { memory with foundBy := memory.foundBy.erase h } bound where
  left := U.left
  filed := U.filed
  found {i t} ht := by
    rw [Index.get_erase] at ht
    split at ht
    · exact absurd ht Std.ExtTreeSet.not_mem_empty
    · exact U.found ht

end NodeMemory.Under

/-! ## The matching -/

namespace Matching

/-- Tokens are between those above and those below them, and nothing is noted of tokens to come. -/
structure Layered (m : Matching) : Prop where
  token : ∀ {t : TokenId} {token : Token}, m.tokens[t]? = some token → t < m.nextToken
  parent : ∀ {t : TokenId} {token : Token} {p}, m.tokens[t]? = some token →
    token.parent = some p → p < t
  child : ∀ {t : TokenId} {token : Token} {c}, m.tokens[t]? = some token → c ∈ token.children →
    t < c ∧ c < m.nextToken
  above : ∀ {t : TokenId} {token : Token} {c}, m.tokens[t]? = some token → c ∈ token.children →
    ∀ o, m.origin? c = some o → o.parent = some t
  nodup : ∀ {t : TokenId} {token : Token}, m.tokens[t]? = some token → token.children.Nodup
  node : ∀ n, (m.node n).Under m.nextToken
  marked : ∀ {dirty}, m.deferred = some dirty → ∀ result ∈ dirty, result.2 < m.nextToken

namespace Layered

variable {net : Network} {store : WorkingMemory} {m m' : Matching} {n : NodeId}
  {left t : TokenId} (L : m.Layered)
include L

/-! ## Notes -/

/-- What is neither a token nor a note of one may change. -/
theorem congr (htokens : m'.tokens = m.tokens) (hnext : m'.nextToken = m.nextToken)
    (hnodes : m'.nodes = m.nodes) (hdeferred : m'.deferred = m.deferred) : m'.Layered where
  token h := hnext ▸ L.token (htokens ▸ h)
  parent h hp := L.parent (htokens ▸ h) hp
  child h hc := hnext ▸ L.child (htokens ▸ h) hc
  above h hc o ho := L.above (htokens ▸ h) hc o (origin?_congr htokens ▸ ho)
  nodup h := L.nodup (htokens ▸ h)
  node n := by
    rw [Matching.node, hnodes, hnext]
    exact L.node n
  marked h := hnext ▸ L.marked (hdeferred ▸ h)

theorem shelve (h : Shelves m m') : m'.Layered :=
  L.congr h.tokens h.nextToken h.nodes h.deferred

theorem setNode {memory : NodeMemory} (U : memory.Under m.nextToken) (n : NodeId) :
    (m.setNode n memory).Layered :=
  { L with
    node := fun k => by
      rw [node_setNode]
      split
      · exact U
      · exact L.node k }

/-- A node may change in what it does not note of left tokens. -/
theorem amend {memory : NodeMemory} {n : NodeId} (hleft : memory.left = (m.node n).left)
    (hindex : memory.leftIndex = (m.node n).leftIndex)
    (hfound : memory.foundBy = (m.node n).foundBy) : (m.setNode n memory).Layered :=
  L.setNode ⟨hleft ▸ (L.node n).left, hindex ▸ (L.node n).filed, hfound ▸ (L.node n).found⟩ n

theorem defer {deferred : Option (Std.ExtTreeSet (NodeId × TokenId) dictionary)}
    (h : ∀ {dirty}, deferred = some dirty → ∀ result ∈ dirty, result.2 < m.nextToken) :
    ({ m with deferred } : Matching).Layered :=
  { L with marked := h }

theorem mark (hlt : left < m.nextToken) {dirty : Std.ExtTreeSet (NodeId × TokenId) dictionary}
    (hd : m.deferred = some dirty) (n : NodeId) :
    ({ m with deferred := some (dirty.insert (n, left)) } : Matching).Layered := by
  refine L.defer fun h result hr => ?_
  obtain rfl := Option.some.inj h
  rw [Std.ExtTreeSet.mem_insert, @Std.LawfulEqCmp.compare_eq_iff_eq _ dictionary] at hr
  rcases hr with rfl | hr
  · exact hlt
  · exact L.marked hd result hr

theorem fileLeft (hlt : left < m.nextToken) (n : NodeId) (kind : NodeKind) :
    (m.fileLeft store n kind left).Layered := by
  have hleft : ∀ {t}, t ∈ (m.node n).left.insert left → t < m.nextToken := fun ht =>
    (IdSet.mem_insert.1 ht).elim (fun h => h ▸ hlt) (L.node n).left
  refine L.setNode ?_ n
  split
  · exact ⟨hleft, (L.node n).filed, (L.node n).found⟩
  · refine ⟨hleft, fun hb t ht => ?_, (L.node n).found⟩
    rcases Buckets.mem_of_mem_file hb ht with rfl | ⟨c, hc, ht⟩
    · exact hlt
    · exact (L.node n).filed hc t ht

theorem fileFound (hlt : left < m.nextToken) (n : NodeId) (facts : List Handle) :
    (m.fileFound n left facts).Layered :=
  L.setNode ((L.node n).note hlt _ _ _) n

theorem fileAccumulator (hlt : left < m.nextToken) (n : NodeId) (acc : Accumulator) :
    (m.fileAccumulator n left acc).Layered :=
  L.setNode ((L.node n).note hlt _ _ _) n

theorem find (hlt : left < m.nextToken) (n : NodeId) (h : Handle) :
    (m.find n left h).2.Layered :=
  L.setNode ((L.node n).note hlt [h] _ _) n

/-- A token arrives at a node. -/
theorem arrive (hlt : left < m.nextToken) (n : NodeId) :
    (m.arrive net store n left).2.Layered ∧
      (m.arrive net store n left).2.nextToken = m.nextToken := by
  unfold Matching.arrive
  split
  · exact ⟨L, rfl⟩
  · next kind _ =>
    have L₁ : (m.fileLeft store n kind left).Layered := L.fileLeft hlt n kind
    dsimp only
    split
    · exact ⟨L₁, rfl⟩
    · exact ⟨L₁.fileFound hlt n _, rfl⟩
    · exact ⟨L₁.fileFound hlt n _, rfl⟩
    · split
      · next dirty hd => exact ⟨(L₁.fileAccumulator hlt n _).mark hlt hd n, rfl⟩
      · exact ⟨L₁.fileAccumulator hlt n _, rfl⟩
    · exact ⟨L₁, rfl⟩

end Layered

/-! ## Tokens that come -/

theorem getElem?_addToken {net : Network} {m : Matching} {n : NodeId} {left : TokenId}
    (hlt : left < m.nextToken) (e : Extension) (t : TokenId) :
    (m.addToken net n left e).tokens[t]? = if m.nextToken = t then
      some ⟨some left, some n, net.depthOf n, e.handle, e.value, []⟩
    else (m.tokens[t]?).map fun token =>
      if left = t then { token with children := token.children ++ [m.nextToken] } else token := by
  have hne : ¬ m.nextToken = left := fun e => Nat.lt_irrefl _ (e ▸ hlt)
  rw [addToken_eq, sprout, (m.passOn_eq net n left).1, (m.passOn_eq net n left).2.1]
  simp only [Std.ExtTreeMap.getElem?_modify, Std.ExtTreeMap.getElem?_insert, Nat.compare_eq_eq]
  by_cases hl : left = t
  · subst hl
    simp only [if_true, if_neg hne]
  · simp only [if_neg hl]
    split
    · rfl
    · exact Option.map_id'.symm ▸ rfl

/-- An old token is as it was, but for its children. -/
theorem token_addToken {net : Network} {m : Matching} {n : NodeId} {left t : TokenId}
    {e : Extension} {token : Token} (hlt : left < m.nextToken)
    (h : (m.addToken net n left e).tokens[t]? = some token) :
    (t = m.nextToken ∧ token.parent = some left ∧ token.children = []) ∨
      ∃ old, m.tokens[t]? = some old ∧ token.parent = old.parent ∧
        token.children = old.children ++ if left = t then [m.nextToken] else [] := by
  rw [getElem?_addToken hlt] at h
  split at h
  · next heq =>
    obtain rfl := Option.some.inj h
    exact .inl ⟨heq.symm, rfl, rfl⟩
  · obtain ⟨old, hold, rfl⟩ := Option.map_eq_some_iff.1 h
    refine .inr ⟨old, hold, ?_⟩
    split
    · exact ⟨rfl, rfl⟩
    · exact ⟨rfl, (List.append_nil _).symm⟩

/-- Only an old token has children, which are those it had and maybe the new token. -/
theorem child_addToken {net : Network} {m : Matching} {n : NodeId} {left t c : TokenId}
    {e : Extension} {token : Token} (hlt : left < m.nextToken)
    (h : (m.addToken net n left e).tokens[t]? = some token) (hc : c ∈ token.children) :
    ∃ old, m.tokens[t]? = some old ∧ (c ∈ old.children ∨ (left = t ∧ c = m.nextToken)) := by
  rcases token_addToken hlt h with ⟨-, -, hnone⟩ | ⟨old, hold, -, hchildren⟩
  · rw [hnone] at hc
    cases hc
  · rw [hchildren, mem_append_if] at hc
    exact ⟨old, hold, hc⟩

namespace Layered

variable {net : Network} {store : WorkingMemory} {m m' : Matching} {n : NodeId}
  {left t : TokenId} (L : m.Layered)
include L

/-- A token comes under one that has come before. -/
theorem addToken (hlt : left < m.nextToken) (n : NodeId) (e : Extension) :
    (m.addToken net n left e).Layered := by
  have hnext : (m.addToken net n left e).nextToken = m.nextToken + 1 := nextToken_addToken e
  constructor
  case token =>
    intro t token h
    rw [hnext]
    rcases token_addToken hlt h with ⟨rfl, -⟩ | ⟨old, hold, -⟩
    · exact Nat.lt_succ_self _
    · exact Nat.lt_succ_of_lt (L.token hold)
  case parent =>
    intro t token p h hp
    rcases token_addToken hlt h with ⟨rfl, hparent, -⟩ | ⟨old, hold, hparent, -⟩
    · obtain rfl := Option.some.inj (hp.symm.trans hparent)
      exact hlt
    · exact L.parent hold (hparent ▸ hp)
  case child =>
    intro t token c h hc
    rw [hnext]
    obtain ⟨old, hold, hc⟩ := child_addToken hlt h hc
    rcases hc with hc | ⟨-, rfl⟩
    · exact ⟨(L.child hold hc).1, Nat.lt_succ_of_lt (L.child hold hc).2⟩
    · exact ⟨L.token hold, Nat.lt_succ_self _⟩
  case above =>
    intro t token c h hc o ho
    rw [origin?_addToken] at ho
    obtain ⟨old, hold, hc⟩ := child_addToken hlt h hc
    rcases hc with hc | ⟨heq, rfl⟩
    · rw [if_neg (Nat.ne_of_lt (L.child hold hc).2)] at ho
      exact L.above hold hc o ho
    · rw [if_pos rfl] at ho
      obtain rfl := Option.some.inj ho
      exact congrArg some heq
  case nodup =>
    intro t token h
    rcases token_addToken hlt h with ⟨-, -, hnone⟩ | ⟨old, hold, -, hchildren⟩
    · exact hnone ▸ List.nodup_nil
    · rw [hchildren]
      exact nodup_append_if (L.nodup hold) fun hc => Nat.lt_irrefl _ (L.child hold hc).2
  case node =>
    intro k
    rw [hnext, addToken_eq]
    show ((m.passOn net n left).node k).Under _
    rw [passOn]
    split
    · exact (L.node k).mono (Nat.le_succ _)
    · rw [node_setNode]
      split
      · have U := (L.node n).mono (Nat.le_succ m.nextToken)
        exact ⟨U.left, U.filed, U.found⟩
      · exact (L.node k).mono (Nat.le_succ _)
  case marked =>
    intro dirty h result hr
    rw [hnext]
    rw [addToken_eq] at h
    exact Nat.lt_succ_of_lt (L.marked ((m.passOn_eq net n left).2.2.2 ▸ h) result hr)

/-! ## Tokens that go -/

/-- Tokens may go, and tokens may lose children. -/
theorem thin {tokens : Std.ExtTreeMap TokenId Token}
    (h : ∀ {t : TokenId} {token : Token}, tokens[t]? = some token → ∃ old, m.tokens[t]? = some old ∧
      token.origin = old.origin ∧ token.children.Sublist old.children) :
    ({ m with tokens } : Matching).Layered where
  token ht := by
    obtain ⟨old, hold, -⟩ := h ht
    exact L.token hold
  parent {t token p} ht hp := by
    obtain ⟨old, hold, ho, -⟩ := h ht
    exact L.parent hold ((congrArg Origin.parent ho).symm.trans hp)
  child ht hc := by
    obtain ⟨old, hold, -, hsub⟩ := h ht
    exact L.child hold (hsub.subset hc)
  above {t token c} ht hc o ho := by
    obtain ⟨old, hold, -, hsub⟩ := h ht
    obtain ⟨below, hbelow, rfl⟩ := origin?_eq_some.1 ho
    obtain ⟨old', hold', heq, -⟩ := h hbelow
    rw [heq]
    exact L.above hold (hsub.subset hc) _ (origin?_of_live hold')
  nodup ht := by
    obtain ⟨old, hold, -, hsub⟩ := h ht
    exact (L.nodup hold).sublist hsub
  node := L.node
  marked := L.marked

theorem detach (t : TokenId) : (m.detach t).Layered := by
  refine L.thin fun {s token} h => ?_
  rw [Std.ExtTreeMap.getElem?_erase] at h
  split at h
  · cases h
  · exact ⟨token, h, rfl, .refl _⟩

theorem removeLeft (n : NodeId) (left : TokenId) : (m.removeLeft n left).Layered := by
  unfold Matching.removeLeft
  refine Layered.defer (L.setNode ?_ n) fun {dirty} h result hr => ?_
  · refine ⟨fun ht => (L.node n).left (IdSet.mem_erase.1 ht).2, fun hb t ht => ?_, fun ht =>
      (L.node n).found (Index.mem_get_unfileAll.1 ht).1⟩
    dsimp only at hb
    split at hb
    · obtain ⟨c, hc, ht⟩ := Buckets.mem_of_mem_unfile hb ht
      exact (L.node n).filed hc t ht
    · exact (L.node n).filed hb t ht
  · obtain ⟨old, hold, rfl⟩ := Option.map_eq_some_iff.1 h
    exact L.marked hold result (Std.ExtTreeSet.mem_of_mem_erase hr)

theorem removeLefts (cs : List NodeId) (t : TokenId) :
    (cs.foldl (fun m child => m.removeLeft child t) m).Layered := by
  induction cs generalizing m with
  | nil => exact L
  | cons c rest ih => exact ih (L.removeLeft c t)

theorem strip (net : Network) (t : TokenId) (token : Token) : (m.strip net t token).Layered := by
  have hthin : ∀ {m₁ : Matching}, m₁.Layered → ∀ (tokensByFact : Index)
      (tokens : Std.ExtTreeMap TokenId Token),
      (∀ {s : TokenId} {below : Token}, tokens[s]? = some below → ∃ old, m₁.tokens[s]? = some old ∧
        below.origin = old.origin ∧ below.children.Sublist old.children) →
      ({ m₁ with tokensByFact, tokens } : Matching).Layered := by
    intro m₁ L₁ tokensByFact tokens h
    have L₂ : ({ m₁ with tokensByFact } : Matching).Layered := L₁.congr rfl rfl rfl rfl
    exact L₂.thin h
  unfold Matching.strip
  refine hthin ?_ _ _ fun {s below} h => ?_
  · split
    · exact L
    · refine Layered.removeLefts ?_ _ t
      exact L.congr rfl rfl rfl rfl
  · split at h
    · rw [Std.ExtTreeMap.getElem?_modify] at h
      split at h
      · next parent _ heq =>
        obtain rfl := Nat.compare_eq_eq.1 heq
        obtain ⟨old, hold, rfl⟩ := Option.map_eq_some_iff.1 h
        exact ⟨old, hold, rfl, List.filter_sublist⟩
      · exact ⟨below, h, rfl, .refl _⟩
    · exact ⟨below, h, rfl, .refl _⟩

end Layered

/-- A matching without facts. -/
theorem layered_empty : Matching.empty.Layered := by
  have htoken : ∀ {t : TokenId} {token : Token}, Matching.empty.tokens[t]? = some token →
      t = rootToken ∧ token = ⟨none, none, 0, none, none, []⟩ := by
    intro t token h
    rw [Matching.empty, Std.ExtTreeMap.getElem?_insert] at h
    split at h
    · next heq => exact ⟨(Nat.compare_eq_eq.1 heq).symm, (Option.some.inj h).symm⟩
    · cases h
  refine ⟨fun h => ?_, fun h hp => ?_, fun h hc => ?_, fun h hc => ?_, fun h => ?_, fun n => ?_,
    fun h => nomatch h⟩
  · obtain ⟨rfl, -⟩ := htoken h
    exact Nat.lt_succ_self _
  · obtain ⟨-, rfl⟩ := htoken h
    cases hp
  · obtain ⟨-, rfl⟩ := htoken h
    cases hc
  · obtain ⟨-, rfl⟩ := htoken h
    cases hc
  · obtain ⟨-, rfl⟩ := htoken h
    exact List.nodup_nil
  · exact .empty

end Matching

end RuleNet
