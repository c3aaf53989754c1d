/-
  All work of a matching ends.

  Where a node makes a token, the nodes below are later ones, and only nodes that follow are ever made to
  work. What goes takes along only what is below it. A window that is too full has a first member, and with
  it goes one of those that are too many.

  * `yields_emit`: a token is made with all that follows, by induction over the nodes from the last one
    upwards.
  * `yields_assertRight`, `yields_retractRight`, `yields_evict`: nodes are told of facts.
  * `yields_trim`: the oldest facts go until there is room.
  * `yields_assert`, `yields_retract`, `yields_expireWindows`, `yields_endUpdate`: whole calls.
-/
import RuleNet.Proofs.Matching.Emit
import RuleNet.Proofs.Matching.Shelf
import RuleNet.Proofs.Matching.Yields
import RuleNet.Proofs.Session.Order

namespace RuleNet

open Matching (Extension)

section
variable {net : Network} {store : WorkingMemory} {m : Matching} {n : NodeId} {left : TokenId}

/-! ## Growing -/

/-- A token arrives at a node, if the node can make tokens. -/
theorem yields_arrive_of (hemit : ∀ (e : Extension) (m : Matching), m.Layered →
    left < m.nextToken → Yields net store [.emit n left e] m (m.emit net store n left e))
    (L : m.Layered) (hlt : left < m.nextToken) :
    Yields net store [.arrive n left] m (m.activateLeft net store n left) := by
  obtain ⟨L', hnext⟩ := @Matching.Layered.arrive net store m left L hlt n
  refine .call rfl ((yields_climb L' left).cons ?_) (Nat.le_of_eq hnext.symm)
  exact .each L' fun e _ m' L'' hle =>
    hemit e m' L'' (Nat.lt_of_lt_of_le hlt (Nat.le_trans (Nat.le_of_eq hnext.symm) hle))

section
variable (W : net.WellFormed)
include W

/-- A node makes a token, and all that follows is made. -/
theorem yields_emit (L : m.Layered) (hlt : left < m.nextToken) (n : NodeId) (e : Extension) :
    Yields net store [.emit n left e] m (m.emit net store n left e) := by
  obtain ⟨k, hk⟩ : ∃ k, net.nodes.size ≤ n + k := ⟨net.nodes.size, Nat.le_add_left _ _⟩
  -- by induction on how many nodes may be below
  induction k generalizing m left n e with
  | zero =>
    have hnone : net.childrenOf n = [] := List.eq_nil_iff_forall_not_mem.2 fun c hc => by
      obtain ⟨node, hnode, hp⟩ := W.children.1 hc
      exact Nat.not_lt.2 hk (Nat.lt_trans (W.parent hnode hp).1 (Network.lt_size hnode))
    rw [Matching.emit_eq W, hnone]
    refine .call (rfl : (Task.emit n left e).work net store m = _) ?_ ?_
    · rw [hnone]
      exact .nil (L.addToken hlt n e)
    · rw [Matching.nextToken_addToken]
      exact Nat.le_succ _
  | succ k ih =>
    rw [Matching.emit_eq W]
    have hnext := @Matching.nextToken_addToken net m n left e
    refine .call rfl (.each (L.addToken hlt n e) fun c hc m' L' hle => ?_) (hnext ▸ Nat.le_succ _)
    have hlt' : m.nextToken < m'.nextToken := Nat.lt_of_lt_of_le (hnext ▸ Nat.lt_succ_self _) hle
    refine yields_arrive_of (fun e' m'' L'' hlt'' => ih L'' hlt'' c e' ?_) L' hlt'
    obtain ⟨node, hnode, hp⟩ := W.children.1 hc
    have hnc := (W.parent hnode hp).1
    refine Nat.le_trans hk ?_
    rw [Nat.add_succ, ← Nat.succ_add]
    exact Nat.add_le_add_right hnc k

theorem yields_arrive (L : m.Layered) (hlt : left < m.nextToken) (n : NodeId) :
    Yields net store [.arrive n left] m (m.activateLeft net store n left) :=
  yields_arrive_of (fun e _ L' hlt' => yields_emit W L' hlt' n e) L hlt

end

/-! ## Results -/

/-- A node takes back what it passed on. -/
theorem yields_withdraw (L : m.Layered) (n : NodeId) (left : TokenId) :
    Yields net store [.withdraw n left] m (m.withdraw net n left) := by
  cases hout : (m.node n).outputs[left]? with
  | none =>
    simp only [Matching.withdraw, hout]
    exact .idle L (by simp only [Task.work, hout])
  | some out =>
    have L₁ : (m.setNode n { m.node n with
        outputs := (m.node n).outputs.erase left }).Layered := L.amend rfl rfl rfl
    simp only [Matching.withdraw, hout]
    exact .call (by simp only [Task.work, hout]) (yields_delete L₁ out) (Nat.le_refl _)

section
variable (W : net.WellFormed)
include W

/-- A result is made anew. -/
theorem yields_renew (L : m.Layered) (hlt : left < m.nextToken) (n : NodeId)
    (result : Option Value) :
    Yields net store [.renew n left result] m (m.renew net store n left result) := by
  have hfirst := @yields_withdraw net store m L n left
  refine .call rfl (hfirst.cons ?_) (Nat.le_refl _)
  cases result with
  | none => exact .nil hfirst.layered
  | some value =>
    exact yields_emit W hfirst.layered (Nat.lt_of_lt_of_le hlt hfirst.grows) n (.result value)

/-- The contributions to a result have changed. -/
theorem yields_refresh (L : m.Layered) (hlt : left < m.nextToken) (n : NodeId) :
    Yields net store [.refresh n left] m (m.refresh net store n left) := by
  unfold Matching.refresh
  split
  · next dirty hd =>
    exact .call (by simp only [Task.work, hd]) (.nil (L.mark hlt hd n)) (Nat.le_refl _)
  · next hd =>
    split
    · next feed fold having acc hk hacc =>
      exact .call (by simp only [Task.work, hd, hk, hacc])
        ((yields_climb L left).cons (yields_renew W L hlt n _)) (Nat.le_refl _)
    · next hno => exact .idle L (by simp only [Task.work, hd])

/-- A result is made anew if it differs. -/
theorem yields_settle (L : m.Layered) (hlt : left < m.nextToken) (n : NodeId) :
    Yields net store [.settle n left] m (m.settle net store n left) := by
  unfold Matching.settle
  split
  · next feed fold having acc hk hacc =>
    have hwork : (Task.settle n left).work net store m = (.climb left ::
        if m.standing? n left == m.gatedResult? store having left acc then []
        else [.renew n left (m.gatedResult? store having left acc)], m) := by
      simp only [Task.work, hk, hacc]
    refine .call hwork ((yields_climb L left).cons ?_) (Nat.le_refl _)
    dsimp only
    split
    · exact .nil L
    · exact yields_renew W L hlt n _
  · next hno => exact .idle L (by simp only [Task.work])

/-! ## Facts at nodes -/

/-- A fact goes with a left token. -/
theorem yields_meet (L : m.Layered) (hlt : left < m.nextToken) (n : NodeId) (kind : NodeKind)
    (h : Handle) : Yields net store [.meet n kind h left] m (m.meet net store n kind h left) := by
  cases kind with
  | join feed => exact .call rfl (yields_emit W L hlt n (.fact h)) (Nat.le_refl _)
  | absent feed =>
    have L₁ := L.find hlt n h
    have hnext : (m.find n left h).2.nextToken = m.nextToken := rfl
    rcases hfind : m.find n left h with ⟨first, m₁⟩
    rw [hfind] at L₁ hnext
    simp only [Matching.meet, hfind]
    refine .perhaps L₁ hnext ?_ (yields_withdraw L₁ n left)
    simp only [Task.work, hfind]
  | present feed =>
    have L₁ := L.find hlt n h
    have hnext : (m.find n left h).2.nextToken = m.nextToken := rfl
    rcases hfind : m.find n left h with ⟨first, m₁⟩
    rw [hfind] at L₁ hnext
    simp only [Matching.meet, hfind]
    refine .perhaps L₁ hnext ?_ (yields_emit W L₁ (Nat.lt_of_lt_of_eq hlt hnext.symm) n .nothing)
    simp only [Task.work, hfind]
  | accumulate feed fold having =>
    cases hacc : (m.node n).accumulators[left]? with
    | none =>
      simp only [Matching.meet, hacc]
      exact .idle L (by simp only [Task.work, hacc])
    | some acc =>
      have L₁ : (m.setNode n { m.node n with
          accumulators := (m.node n).accumulators.insert left
            (acc.add h (Matching.contribution store fold h))
          foundBy := (m.node n).foundBy.file h left }).Layered :=
        L.setNode ((L.node n).note hlt [h] _ _) n
      simp only [Matching.meet, hacc]
      exact .call (by simp only [Task.work, hacc]) (yields_refresh W L₁ hlt n) (Nat.le_refl _)
  | predicate p scope => exact .idle L rfl

/-- A fact no longer goes with a left token. -/
theorem yields_part (L : m.Layered) (hlt : left < m.nextToken) (n : NodeId) (kind : NodeKind)
    (h : Handle) : Yields net store [.part n kind h left] m (m.part net store n kind h left) := by
  cases kind with
  | join feed => exact .idle L rfl
  | predicate p scope => exact .idle L rfl
  | absent feed =>
    cases hfacts : (m.node n).found[left]? with
    | none =>
      simp only [Matching.part, hfacts]
      exact .idle L (by simp only [Task.work, hfacts])
    | some facts =>
      have L₁ : (m.setNode n { m.node n with
          found := (m.node n).found.insert left (facts.erase h) }).Layered := L.amend rfl rfl rfl
      simp only [Matching.part, hfacts]
      split
      · next hmore =>
        exact .call (by simp only [Task.work, hfacts, if_pos hmore]) (.nil L₁) (Nat.le_refl _)
      · next hlast =>
        exact .call (by simp only [Task.work, hfacts, if_neg hlast])
          (yields_emit W L₁ hlt n .nothing) (Nat.le_refl _)
  | present feed =>
    cases hfacts : (m.node n).found[left]? with
    | none =>
      simp only [Matching.part, hfacts]
      exact .idle L (by simp only [Task.work, hfacts])
    | some facts =>
      have L₁ : (m.setNode n { m.node n with
          found := (m.node n).found.insert left (facts.erase h) }).Layered := L.amend rfl rfl rfl
      simp only [Matching.part, hfacts]
      split
      · next hmore =>
        exact .call (by simp only [Task.work, hfacts, if_pos hmore]) (.nil L₁) (Nat.le_refl _)
      · next hlast =>
        exact .call (by simp only [Task.work, hfacts, if_neg hlast])
          (yields_withdraw L₁ n left) (Nat.le_refl _)
  | accumulate feed fold having =>
    cases hacc : (m.node n).accumulators[left]? with
    | none =>
      simp only [Matching.part, hacc]
      exact .idle L (by simp only [Task.work, hacc])
    | some acc =>
      have L₁ : (m.setNode n { m.node n with
          accumulators := (m.node n).accumulators.insert left (acc.remove h) }).Layered :=
        L.amend rfl rfl rfl
      simp only [Matching.part, hacc]
      split
      · next hin =>
        exact .call (by simp only [Task.work, hacc, if_pos hin]) (yields_refresh W L₁ hlt n)
          (Nat.le_refl _)
      · next hout => exact .idle L (by simp only [Task.work, hacc, if_neg hout])

/-- A node is told of a fact that has come. -/
theorem yields_assertRight (L : m.Layered) (h : Handle) (n : NodeId) :
    Yields net store [.assertRight h n] m (m.assertRight net store h n) := by
  cases hk : net.kind? n with
  | none =>
    simp only [Matching.assertRight, hk]
    exact .idle L (by simp only [Task.work, hk])
  | some kind =>
    cases hf : kind.feed? with
    | none =>
      simp only [Matching.assertRight, hk, hf]
      exact .idle L (by simp only [Task.work, hk, hf])
    | some feed =>
      have hlt : ∀ left ∈ m.leftCandidates store n feed h, left < m.nextToken := by
        intro left hl
        unfold Matching.leftCandidates at hl
        split at hl
        · exact (L.node n).of_get (Std.ExtTreeSet.mem_toList.1 hl)
        · exact (L.node n).left (Std.ExtTreeSet.mem_toList.1 hl)
      simp only [Matching.assertRight, hk, hf]
      have hwork : (Task.assertRight h n).work net store m =
          ((m.leftCandidates store n feed h).map .climb ++
            ((m.leftCandidates store n feed h).filter fun left =>
              m.passes store feed.tests left h).map (.meet n kind h), m) := by
        simp only [Task.work, hk, hf]
      refine .call hwork ((yields_climbs L _).append (.each L fun left hl m' L' hle => ?_))
        (Nat.le_refl _)
      exact yields_meet W L' (Nat.lt_of_lt_of_le (hlt left (List.mem_filter.1 hl).1) hle) n kind h

/-- A node is told of a fact that has gone. -/
theorem yields_retractRight (L : m.Layered) (h : Handle) (n : NodeId) :
    Yields net store [.retractRight h n] m (m.retractRight net store h n) := by
  cases hk : net.kind? n with
  | none =>
    simp only [Matching.retractRight, hk]
    exact .idle L (by simp only [Task.work, hk])
  | some kind =>
    simp only [Matching.retractRight, hk]
    have hwork : (Task.retractRight h n).work net store m =
        (((m.node n).foundBy.get h).toList.map (.part n kind h),
          m.setNode n { m.node n with foundBy := (m.node n).foundBy.erase h }) := by
      simp only [Task.work, hk]
    refine .call hwork (.each (L.setNode ((L.node n).erase h) n) fun left hl m' L' hle => ?_)
      (Nat.le_refl _)
    have hlt := (L.node n).found (Std.ExtTreeSet.mem_toList.1 hl)
    exact yields_part W L' (Nat.lt_of_lt_of_le hlt hle) n kind h

/-! ## Facts that leave -/

theorem yields_retractRights (L : m.Layered) (h : Handle) (ns : List NodeId) :
    Yields net store (ns.map (.retractRight h)) m
      (ns.foldl (Matching.retractRight net store h) m) :=
  .each L fun n _ _ L' _ => yields_retractRight W L' h n

/-- A fact leaves one memory. -/
theorem yields_evict (L : m.Layered) (a : AlphaId) (h : Handle) :
    Yields net store [.evict a h] m (m.evict net store a h) := by
  cases hf : store.fact? h with
  | none =>
    simp only [Matching.evict, hf]
    exact .idle L (by simp only [Task.work, hf])
  | some fact =>
    have hs := m.shelves_unshelve a h fact
    have hgone := @yields_deletes net store _ (L.shelve hs)
      (((m.unshelve a h fact).tokensByFact.get h).toList.filter fun t =>
        (((m.unshelve a h fact).tokens[t]?).bind Token.node).any fun n =>
          (net.kind? n).any fun kind => kind.alpha? == some a)
    simp only [Matching.evict, hf]
    refine .call ?_ (hgone.append (yields_retractRights W hgone.layered h
      (Matching.watchers net a))) (Nat.le_of_eq hs.nextToken.symm)
    simp only [Task.work, hf]
    rfl

/-- Facts that are too old leave one memory. -/
theorem yields_sweep (L : m.Layered) (now : Moment) (a : AlphaId) :
    Yields net store [.sweep now a] m
      ((m.outdated net now a).foldl (Matching.evict net store a) m) :=
  .call rfl (.each L fun h _ _ L' _ => yields_evict W L' a h) (Nat.le_refl _)

end

/-! ## Windows that are too full -/

/-- Windows are in order, and their members are in working memory. -/
structure Matching.Shelved (net : Network) (store : WorkingMemory) (m : Matching) : Prop where
  ordered : ∀ {a alpha}, net.alpha? a = some alpha → (m.shelf a).Ordered
  live : ∀ a, ∀ h ∈ (m.shelf a).facts, ∃ fact, store.fact? h = some fact

theorem Matching.Shelved.evict (S : m.Shelved net store) (a : AlphaId) (h : Handle) :
    (m.evict net store a h).Shelved net store := by
  have hshelf := fun b => @Matching.shelf_evict net store m a b h (S.live a h)
  refine ⟨fun {b alpha} hb => ?_, fun b i hi => ?_⟩
  · rw [hshelf]
    split
    · exact (S.ordered hb).take h
    · exact S.ordered hb
  · rw [hshelf] at hi
    split at hi
    · exact S.live b i (Shelf.mem_take.1 hi).1
    · exact S.live b i hi

theorem Matching.excess?_eq (m : Matching) (a : AlphaId) :
    m.excess? net a = (m.surplus net a).head? := by
  rw [excess?, surplus]
  rcases (net.alpha? a).bind AlphaNode.window with _ | ⟨length⟩ | ⟨capacity⟩
  · rfl
  · rfl
  · dsimp only
    rw [List.head?_map, List.head?_take]
    by_cases hlt : capacity < (m.alpha a).facts.size
    · rw [if_pos hlt, if_neg (Nat.sub_ne_zero_of_lt hlt)]
    · rw [if_neg hlt, if_pos (Nat.sub_eq_zero_of_le (Nat.not_lt.1 hlt))]
      rfl

/-- The oldest facts leave a memory until it is not too full, and those are the ones that are too many
    at first. -/
theorem yields_trim (W : net.WellFormed) (L : m.Layered) (S : m.Shelved net store) (a : AlphaId) :
    Yields net store [.trim a] m ((m.surplus net a).foldl (Matching.evict net store a) m) ∧
      ((m.surplus net a).foldl (Matching.evict net store a) m).Shelved net store := by
  obtain ⟨hs, hsurplus⟩ : ∃ hs, m.surplus net a = hs := ⟨_, rfl⟩
  have hexcess := @Matching.excess?_eq net m a
  rw [hsurplus] at hexcess ⊢
  induction hs generalizing m with
  | nil => exact ⟨.idle L (by simp only [Task.work, hexcess, List.head?_nil]), S⟩
  | cons h rest ih =>
    have hevict := @yields_evict net store m W L a h
    have S' := S.evict a h
    have hrest : (m.evict net store a h).surplus net a = rest := by
      cases ha : net.alpha? a with
      | none =>
        rw [Matching.surplus, ha] at hsurplus
        cases hsurplus
      | some alpha =>
        rw [Matching.surplus_eq _ ha] at hsurplus ⊢
        rw [Matching.shelf_evict m a a (S.live a h), if_pos rfl]
        exact (S.ordered ha).surplus_take hsurplus
    have hnext := ih hevict.layered S' hrest (by rw [Matching.excess?_eq, hrest])
    refine ⟨.call ?_ (hevict.cons hnext.1) (Nat.le_refl _), hnext.2⟩
    simp only [Task.work, hexcess, List.head?_cons]

theorem yields_trims (W : net.WellFormed) (L : m.Layered) (S : m.Shelved net store)
    (as : List AlphaId) : Yields net store (as.map .trim) m
      (as.foldl (fun m a => (m.surplus net a).foldl (Matching.evict net store a) m) m) := by
  rw [List.map_eq_flatMap]
  exact .each_of L S fun a _ _ L' _ S' => yields_trim W L' S' a

/-! ## Whole calls -/

section
variable (W : net.WellFormed)
include W

/-- The nodes that some memories feed are told of a fact that has come. -/
theorem yields_spread (L : m.Layered) (h : Handle) (entered : List AlphaId) :
    Yields net store [.spread h entered] m
      ((net.deepestFirst ((entered.filter fun a => (m.alpha a).facts.contains h).flatMap
        net.successorsOf)).foldl (Matching.assertRight net store h) m) :=
  .call rfl (.each L fun n _ _ L' _ => yields_assertRight W L' h n) (Nat.le_refl _)

/-- A fact comes that no memory has. -/
theorem yields_assert (L : m.Layered) (K : Stocked net store m)
    (hordered : ∀ {a alpha}, net.alpha? a = some alpha → (m.shelf a).Ordered) {h : Handle}
    (hno : ∀ a, h ∉ (m.shelf a).facts) (now : Moment) :
    Yields net store [.assert h now] m (m.assert net store h now) := by
  cases he : store.entry? h with
  | none =>
    simp only [Matching.assert, he]
    exact .idle L (by simp only [Task.work, he])
  | some entry =>
    have hcandidates := fun a => @Network.admits_of_candidate net entry.fact a
    obtain ⟨-, hshelf⟩ := Matching.shelf_offerAll now h (List.nodup_range.filter _) hcandidates m
    rw [← Network.candidates] at hshelf
    rcases hoffered : Matching.offerAll net now h entry m (net.candidates entry.fact) with
      ⟨entered, m₁⟩
    rw [hoffered] at hshelf
    have O := Matching.offerAll_spec K he hcandidates hoffered
    have L₁ : ({ m₁ with memoriesOf := m₁.memoriesOf.insert h entered } : Matching).Layered :=
      (L.shelve O.shelves).congr rfl rfl rfl rfl
    have S₁ : Matching.Shelved net store
        { m₁ with memoriesOf := m₁.memoriesOf.insert h entered } := by
      refine ⟨fun {a alpha} ha => ?_, O.stocked.live⟩
      show (m₁.shelf a).Ordered
      rw [hshelf a alpha ha]
      split
      · exact (hordered ha).enter (hno a) alpha entry
      · exact hordered ha
    have htrims := yields_trims W L₁ S₁ entered
    simp only [Matching.assert, he, hoffered]
    refine .call ?_ (htrims.append (yields_spread W htrims.layered h entered))
      (Nat.le_of_eq O.shelves.nextToken.symm)
    simp only [Task.work, he, hoffered]

/-- A fact goes. -/
theorem yields_retract (L : m.Layered) (h : Handle) :
    Yields net store [.retract h] m (m.retract net store h) := by
  cases hf : store.fact? h with
  | none =>
    simp only [Matching.retract, hf]
    exact .idle L (by simp only [Task.work, hf])
  | some fact =>
    have hleave : ∀ (alphas : List AlphaId) (m : Matching),
        Shelves m (alphas.foldl (fun m a => m.leave a h fact) m) := by
      intro alphas
      induction alphas with
      | nil => exact fun _ => .refl
      | cons a rest ih => exact fun m => (Shelves.leave m a h fact).trans (ih _)
    have hs := hleave ((m.memoriesOf[h]?).getD []) { m with memoriesOf := m.memoriesOf.erase h }
    simp only [Matching.retract, hf]
    generalize hm₁ : ((m.memoriesOf[h]?).getD []).foldl (fun m a => m.leave a h fact)
      { m with memoriesOf := m.memoriesOf.erase h } = m₁ at hs ⊢
    have L₁ : ({ m₁ with tokensByFact := m₁.tokensByFact.erase h } : Matching).Layered :=
      L.congr hs.tokens hs.nextToken hs.nodes hs.deferred
    have hgone := @yields_deletes net store _ L₁ (m₁.tokensByFact.get h).toList
    refine .call ?_ (hgone.append (Yields.each_of (P := fun _ => True) hgone.layered trivial
      fun a _ m' L' _ _ => ⟨yields_retractRights W L' h (Matching.watchers net a), trivial⟩))
      (Nat.le_of_eq hs.nextToken.symm)
    simp only [Task.work, hf, hm₁]

/-- Facts leave the windows that they are too old for. -/
theorem yields_expireWindows (L : m.Layered) (now : Moment) :
    Yields net store [.expireWindows now] m (m.expireWindows net store now) :=
  .call rfl (.each L fun a _ _ L' _ => yields_sweep W L' now a) (Nat.le_refl _)

/-- An update ends. -/
theorem yields_endUpdate (L : m.Layered) :
    Yields net store [.endUpdate] m (m.endUpdate net store) := by
  cases hd : m.deferred with
  | none =>
    simp only [Matching.endUpdate, hd]
    exact .idle L (by simp only [Task.work, hd])
  | some dirty =>
    simp only [Matching.endUpdate, hd]
    have L₁ : ({ m with deferred := none } : Matching).Layered := L.defer fun h => by cases h
    have hwork : Task.endUpdate.work net store m =
        (dirty.toList.map fun result => .settle result.1 result.2, { m with deferred := none }) := by
      simp only [Task.work, hd]
    refine .call hwork (.each L₁ fun result hr m' L' hle => ?_) (Nat.le_refl _)
    have hlt := L.marked hd result (Std.ExtTreeSet.mem_toList.1 hr)
    exact yields_settle W L' (Nat.lt_of_lt_of_le hlt hle) result.1

end

end

end RuleNet
