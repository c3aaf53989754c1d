/-
  Steps that make no tokens and take none.

  While results are deferred, a node that folds facts only marks what it will have to look at. So where a
  fact leaves and enters memories that feed no other nodes, every token stays as it is until the results
  are looked at, and nothing is told.

  * `Network.OnlyFolds`: a memory feeds nodes that fold facts, and no others.
  * `Hushed`: a step that makes no tokens and takes none.
  * `Sound.hushed_retract`, `Matching.Deferring.hushed_assert`: a fact leaves, or one enters.
-/
import RuleNet.Proofs.Matching.Course
import RuleNet.Proofs.Matching.Shelf

namespace RuleNet

/-- A memory feeds nodes that fold facts, and no others. -/
def Network.OnlyFolds (net : Network) (a : AlphaId) : Prop :=
  ∀ n, net.Feeds a n → (net.kind? n).any NodeKind.folds = true

/-- Joins do not fold. -/
theorem NodeKind.folds_of_isJoin {kind : NodeKind} (h : kind.isJoin = true) : kind.folds = false := by
  cases kind with
  | join feed => rfl
  | _ => cases h

/-! ## Hushed steps -/

/-- A step that makes no tokens and takes none. Nothing is told of it, and nodes that do not fold find no
    more than before. -/
structure Hushed (net : Network) (m m' : Matching) : Prop where
  tokens : m'.tokens = m.tokens
  nextToken : m'.nextToken = m.nextToken
  events : m'.events = m.events
  deferring : m'.deferred.isSome = m.deferred.isSome
  filed : ∀ {h t}, t ∈ m'.tokensByFact.get h → t ∈ m.tokensByFact.get h
  found : ∀ {n h left}, (net.kind? n).any NodeKind.folds = false →
    left ∈ (m'.node n).foundBy.get h → left ∈ (m.node n).foundBy.get h

namespace Hushed

variable {net : Network} {m m' m'' : Matching}

theorem refl (m : Matching) : Hushed net m m := ⟨rfl, rfl, rfl, rfl, id, fun _ => id⟩

theorem trans (h : Hushed net m m') (h' : Hushed net m' m'') : Hushed net m m'' where
  tokens := h'.tokens.trans h.tokens
  nextToken := h'.nextToken.trans h.nextToken
  events := h'.events.trans h.events
  deferring := h'.deferring.trans h.deferring
  filed ht := h.filed (h'.filed ht)
  found hn hl := h.found hn (h'.found hn hl)

/-- Steps that keep what each of them asks, one after the other. -/
theorem foldl {α : Type} {P : Matching → Prop} {f : Matching → α → Matching} {items : List α}
    (hP : ∀ {m m'}, P m → Hushed net m m' → P m')
    (hf : ∀ m, P m → ∀ a ∈ items, Hushed net m (f m a)) (h : P m) :
    Hushed net m (items.foldl f m) := by
  induction items generalizing m with
  | nil => exact refl m
  | cons a rest ih =>
    have H := hf m h a List.mem_cons_self
    exact H.trans (ih (fun m hm b hb => hf m hm b (List.mem_cons_of_mem a hb)) (hP h H))

end Hushed

theorem Shelves.hushed {net : Network} {m m' : Matching} (h : Shelves m m') : Hushed net m m' where
  tokens := h.tokens
  nextToken := h.nextToken
  events := h.events
  deferring := by rw [h.deferred]
  filed ht := h.tokensByFact ▸ ht
  found _ hl := by rw [h.node] at hl; exact hl

namespace Matching

variable {net : Network} {store : WorkingMemory} {m m' : Matching} {n : NodeId} {kind : NodeKind}
  {h : Handle}

/-! ## Nodes that fold -/

/-- A node that folds writes its memory. -/
theorem hushed_setNode (hfolds : (net.kind? n).any NodeKind.folds = true) (memory : NodeMemory) :
    Hushed net m (m.setNode n memory) where
  tokens := rfl
  nextToken := rfl
  events := rfl
  deferring := rfl
  filed := id
  found {n' h left} hno hl := by
    rw [node_setNode, if_neg] at hl
    · exact hl
    · rintro rfl
      exact Bool.false_ne_true (hno.symm.trans hfolds)

/-- While results are deferred, a result whose facts have changed is marked. -/
theorem hushed_refresh (hd : m.deferred.isSome = true) (left : TokenId) :
    Hushed net m (m.refresh net store n left) := by
  unfold refresh
  split
  · next hsome => exact ⟨rfl, rfl, rfl, by rw [hsome]; rfl, id, fun _ => id⟩
  · next hnone =>
    rw [hnone] at hd
    cases hd

theorem hushed_part (hk : net.kind? n = some kind) (hfolds : kind.folds = true)
    (hd : m.deferred.isSome = true) (left : TokenId) :
    Hushed net m (m.part net store n kind h left) := by
  have hat : (net.kind? n).any NodeKind.folds = true := by rw [hk]; exact hfolds
  cases kind with
  | accumulate feed fold having =>
    unfold part
    dsimp only
    split
    · exact .refl m
    · split
      · have H := @hushed_setNode net m n hat
        exact (H _).trans (hushed_refresh ((H _).deferring.trans hd) left)
      · exact .refl m
  | _ => cases hfolds

theorem hushed_meet (hk : net.kind? n = some kind) (hfolds : kind.folds = true)
    (hd : m.deferred.isSome = true) (left : TokenId) :
    Hushed net m (m.meet net store n kind h left) := by
  have hat : (net.kind? n).any NodeKind.folds = true := by rw [hk]; exact hfolds
  cases kind with
  | accumulate feed fold having =>
    unfold meet
    dsimp only
    split
    · exact .refl m
    · have H := @hushed_setNode net m n hat
      exact (H _).trans (hushed_refresh ((H _).deferring.trans hd) left)
  | _ => cases hfolds

/-- A node is told that a fact has left. -/
theorem hushed_retractRight (hd : m.deferred.isSome = true)
    (hn : (net.kind? n).any NodeKind.folds = false → ∀ left, left ∉ (m.node n).foundBy.get h) :
    Hushed net m (m.retractRight net store h n) := by
  unfold retractRight
  split
  · exact .refl m
  · next kind hk =>
    dsimp only
    have hunlist : Hushed net m
        (m.setNode n { m.node n with foundBy := (m.node n).foundBy.erase h }) := by
      refine ⟨rfl, rfl, rfl, rfl, id, fun {n' i left} _ hl => ?_⟩
      rw [node_setNode] at hl
      split at hl
      · next heq =>
        subst heq
        rw [Index.get_erase] at hl
        split at hl
        · exact absurd hl Std.ExtTreeSet.not_mem_empty
        · exact hl
      · exact hl
    refine hunlist.trans ?_
    cases hfolds : kind.folds with
    | true =>
      exact Hushed.foldl (fun hd H => H.deferring.trans hd)
        (fun m hd left _ => hushed_part hk hfolds hd left) (hunlist.deferring.trans hd)
    | false =>
      have hempty : ((m.node n).foundBy.get h).toList = [] :=
        List.eq_nil_iff_forall_not_mem.2 fun left hl =>
          hn (by rw [hk]; exact hfolds) left (Std.ExtTreeSet.mem_toList.1 hl)
      rw [hempty]
      exact .refl _

/-- A node that folds is told that a fact has come. -/
theorem hushed_assertRight (hfolds : (net.kind? n).any NodeKind.folds = true)
    (hd : m.deferred.isSome = true) : Hushed net m (m.assertRight net store h n) := by
  unfold assertRight
  split
  · exact .refl m
  · next kind hk =>
    rw [hk] at hfolds
    split
    · exact .refl m
    · exact Hushed.foldl (fun hd H => H.deferring.trans hd)
        (fun m hd left _ => hushed_meet hk hfolds hd left) hd

/-! ## Memories that feed them -/

/-- Results are deferred, and nodes that do not fold have not found a fact. -/
structure Unseen (net : Network) (h : Handle) (m : Matching) : Prop where
  deferring : m.deferred.isSome = true
  found : ∀ {n left}, (net.kind? n).any NodeKind.folds = false → left ∉ (m.node n).foundBy.get h

theorem Unseen.hushed (U : m.Unseen net h) (H : Hushed net m m') : m'.Unseen net h :=
  ⟨H.deferring.trans U.deferring, fun hn hl => U.found hn (H.found hn hl)⟩

/-- Results are deferred, and only joins have made tokens of facts. -/
structure Deferring (net : Network) (m : Matching) : Prop where
  deferring : m.deferred.isSome = true
  joined : ∀ {h t o n}, t ∈ m.tokensByFact.get h → m.origin? t = some o → o.node = some n →
    (net.kind? n).any NodeKind.isJoin = true

theorem Deferring.hushed (D : m.Deferring net) (H : Hushed net m m') : m'.Deferring net where
  deferring := H.deferring.trans D.deferring
  joined ht ho hn := D.joined (H.filed ht) (origin?_congr H.tokens ▸ ho) hn

theorem Deferring.of_chained {x : Ledger} (C : Chained net x m) (hd : m.deferred.isSome = true) :
    m.Deferring net where
  deferring := hd
  joined {h t o n} ht ho hn := by
    obtain ⟨-, o', ho', hh⟩ := C.filed.1 ht
    obtain rfl := Option.some.inj (ho.symm.trans ho')
    obtain ⟨n', left, feed, hn', -, hk⟩ := C.made_of_handle ho hh
    obtain rfl := Option.some.inj (hn.symm.trans hn')
    rw [hk]
    rfl

variable (W : net.WellFormed)
include W

/-- A fact leaves one memory. -/
theorem Deferring.hushed_evict {a : AlphaId} (D : m.Deferring net) (hfolds : net.OnlyFolds a)
    (h : Handle) : Hushed net m (m.evict net store a h) := by
  cases hf : store.fact? h with
  | none =>
    simp only [evict, hf]
    exact .refl m
  | some fact =>
    have H : Hushed net m (m.unshelve a h fact) := (m.shelves_unshelve a h fact).hushed
    have D₁ := D.hushed H
    simp only [evict, hf]
    change Hushed net m ((watchers net a).foldl (retractRight net store h)
      ((((m.unshelve a h fact).tokensByFact.get h).toList.filter fun t =>
        (((m.unshelve a h fact).tokens[t]?).bind Token.node).any fun n =>
          (net.kind? n).any fun kind => kind.alpha? == some a).foldl
        (fun m t => m.delete net t) (m.unshelve a h fact)))
    generalize m.unshelve a h fact = m₁ at H D₁
    -- the tokens of the fact are those of joins, and the memory feeds none
    have hnone : ((m₁.tokensByFact.get h).toList.filter fun t =>
        ((m₁.tokens[t]?).bind Token.node).any fun n =>
          (net.kind? n).any fun kind => kind.alpha? == some a) = [] := by
      refine List.filter_eq_nil_iff.2 fun t ht hany => ?_
      obtain ⟨n, hn, hkind⟩ := (Option.any_eq_true _ _).1 hany
      obtain ⟨kind, hk, halpha⟩ := (Option.any_eq_true _ _).1 hkind
      obtain ⟨token, htoken, hn⟩ := Option.bind_eq_some_iff.1 hn
      obtain ⟨feed, hfeed, ha⟩ := Option.map_eq_some_iff.1 (beq_iff_eq.1 halpha)
      have hjoin := D₁.joined (Std.ExtTreeSet.mem_toList.1 ht) (origin?_of_live htoken) hn
      have hfold := hfolds n ⟨kind, feed, hk, hfeed, ha⟩
      rw [hk] at hjoin hfold
      exact Bool.false_ne_true ((NodeKind.folds_of_isJoin hjoin).symm.trans hfold)
    rw [hnone]
    exact H.trans (Hushed.foldl Deferring.hushed (fun m D n hn => hushed_retractRight D.deferring
      fun hno => absurd (hfolds n (W.mem_watchers.1 hn).1) (by rw [hno]; exact Bool.false_ne_true)) D₁)

/-- A fact enters memories that feed nodes that fold, and no others. -/
theorem Deferring.hushed_assert {x : Ledger} (D : m.Deferring net) (k : Kept net store x m) {entry : Entry}
    (he : store.entry? h = some entry) {now : Moment}
    (hfolds : ∀ a, net.takes now entry a = true → net.OnlyFolds a) :
    Hushed net m (m.assert net store h now) := by
  have hcandidates := fun a => @Network.admits_of_candidate net entry.fact a
  obtain ⟨⟨entered, m₁⟩, hoffered⟩ :
      ∃ o, offerAll net now h entry m (net.candidates entry.fact) = o := ⟨_, rfl⟩
  have O := offerAll_spec k.stocked he hcandidates hoffered
  have hentered : ∀ a ∈ entered, net.OnlyFolds a := fun a ha => by
    have hfilter := (shelf_offerAll now h (List.nodup_range.filter _) hcandidates m).1
    rw [← Network.candidates, hoffered] at hfilter
    dsimp only at hfilter
    rw [hfilter] at ha
    exact hfolds a (List.mem_filter.1 ha).2
  have hnoted : Shelves m₁ { m₁ with memoriesOf := m₁.memoriesOf.insert h entered } :=
    ⟨rfl, rfl, rfl, rfl, rfl, rfl⟩
  have H : Hushed net m _ := (O.shelves.trans hnoted).hushed
  simp only [assert, he, hoffered]
  generalize { m₁ with memoriesOf := m₁.memoriesOf.insert h entered } = m₂ at H
  have Hevict : Hushed net m₂
      (entered.foldl (fun m a => (m.surplus net a).foldl (Matching.evict net store a) m) m₂) :=
    Hushed.foldl Deferring.hushed
      (fun m D a ha => Hushed.foldl Deferring.hushed
        (fun m D i _ => D.hushed_evict W (hentered a ha) i) D) (D.hushed H)
  generalize entered.foldl (fun m a => (m.surplus net a).foldl (Matching.evict net store a) m) m₂ = m₃
    at Hevict
  refine (H.trans Hevict).trans (Hushed.foldl Deferring.hushed
    (fun m D n hn => hushed_assertRight ?_ D.deferring) ((D.hushed H).hushed Hevict))
  obtain ⟨a, ha, hfeeds, -⟩ := (mem_targets W (m := m₃) (h := h)).1 hn
  exact hentered a ha n hfeeds

end Matching

/-! ## A fact leaves -/

section
variable {net : Network} {store : WorkingMemory} {x : Ledger} {m : Matching} {h : Handle}

/-- A node that has a left token for which it found a fact is fed by a memory that has the fact. -/
theorem Sound.feeds_of_found (S : Sound net store x m) (hx : x.Still) {n : NodeId} {left : TokenId}
    (hl : left ∈ (m.node n).foundBy.get h) : ∃ a, net.Feeds a n ∧ h ∈ m.members a := by
  obtain ⟨-, hlists⟩ := (S.nodes n).listed.1 hl
  change (m.about n left).Lists h at hlists
  obtain ⟨node, hn, hlive⟩ : m.LeftOf net n left := Classical.byContradiction fun hno => by
    rw [S.blank hno] at hlists
    exact LeftRecord.not_lists hlists
  have hs := S.settled hn hlive (hx.idle n left)
  cases hf : node.kind.feed? with
  | none =>
    cases hkind : node.kind with
    | predicate p scope =>
      rw [hkind] at hs
      obtain ⟨output, hr, -⟩ := hs
      rw [hr] at hlists
      exact absurd hlists LeftRecord.not_lists
    | _ => rw [hkind] at hf; cases hf
  | some feed =>
    have hgoes : node.kind.Goes (m.about n left) (m.Made n left) h := by
      cases hkind : node.kind with
      | join f =>
        rw [hkind] at hs
        rw [hs.1] at hlists
        exact absurd hlists LeftRecord.not_lists
      | _ => exact hlists
    rcases (hs.covers hf h).1 hgoes with hin | hlate
    · exact ⟨feed.alpha, ⟨node.kind, feed, Network.kind?_eq hn, hf, rfl⟩, hin.1⟩
    · exact absurd hlate.1 (hx.told n h)

/-- A token of a fact was made by a join that is fed by a memory that has the fact. -/
theorem Sound.feeds_of_filed (S : Sound net store x m) (hx : x.Still) {t : TokenId}
    (ht : t ∈ m.tokensByFact.get h) : ∃ a n, net.Feeds a n ∧ h ∈ m.members a ∧
      (net.kind? n).any NodeKind.isJoin = true := by
  obtain ⟨-, o, ho, hh⟩ := S.filed.1 ht
  obtain ⟨n, left, feed, -, hmade, hk⟩ := S.toChained.made_of_handle ho hh
  obtain ⟨node, hn, hl⟩ : m.LeftOf net n left := by
    obtain ⟨depth, ho⟩ := hmade
    obtain ⟨p, k, node, above, hp, hk, hn, -, habove, heq, -⟩ :=
      S.forest.made ho (S.forest.ne_root ho rfl)
    cases hp
    cases hk
    exact ⟨node, hn, above, habove, heq⟩
  have hs := S.settled hn hl (hx.idle n left)
  have hkind : node.kind = .join feed := Option.some.inj ((Network.kind?_eq hn).symm.trans hk)
  rw [hkind] at hs
  rcases (hs.2.1 h).1 ⟨t, hmade⟩ with hin | hlate
  · exact ⟨feed.alpha, n, ⟨_, feed, hk, rfl, rfl⟩, hin.1, by rw [hk]; rfl⟩
  · exact absurd hlate.1 (hx.told n h)

/-- A fact leaves memories that feed nodes that fold, and no others. -/
theorem Sound.hushed_retract (S : Sound net store x m) (hx : x.Still)
    (hd : m.deferred.isSome = true) (hfolds : ∀ a, h ∈ m.members a → net.OnlyFolds a) :
    Hushed net m (m.retract net store h) := by
  unfold Matching.retract
  split
  · exact .refl m
  · next fact _ =>
    dsimp only
    generalize (m.memoriesOf[h]?).getD [] = alphas
    have H : Hushed net m (alphas.foldl (fun m a => m.leave a h fact)
        { m with memoriesOf := m.memoriesOf.erase h }) := by
      have hforgot : Shelves m { m with memoriesOf := m.memoriesOf.erase h } :=
        ⟨rfl, rfl, rfl, rfl, rfl, rfl⟩
      exact hforgot.hushed.trans (Hushed.foldl (P := fun _ => True) (fun _ _ => trivial)
        (fun m _ a _ => (Shelves.leave m a h fact).hushed) trivial)
    generalize alphas.foldl (fun m a => m.leave a h fact)
      { m with memoriesOf := m.memoriesOf.erase h } = m₁ at H
    have hnone : (m₁.tokensByFact.get h).toList = [] :=
      List.eq_nil_iff_forall_not_mem.2 fun t ht => by
        obtain ⟨a, n, hfeeds, hin, hjoin⟩ :=
          S.feeds_of_filed hx (H.filed (Std.ExtTreeSet.mem_toList.1 ht))
        have hfold := hfolds a hin n hfeeds
        obtain ⟨kind, hk, hjoin⟩ := (Option.any_eq_true _ _).1 hjoin
        rw [hk] at hfold
        exact Bool.false_ne_true ((NodeKind.folds_of_isJoin hjoin).symm.trans hfold)
    rw [hnone, List.foldl_nil]
    have H₂ : Hushed net m { m₁ with tokensByFact := m₁.tokensByFact.erase h } := by
      refine H.trans ⟨rfl, rfl, rfl, rfl, fun {i t} ht => ?_, fun _ => id⟩
      rw [Index.get_erase] at ht
      split at ht
      · exact absurd ht Std.ExtTreeSet.not_mem_empty
      · exact ht
    -- nodes that do not fold have not found the fact, since no memory that feeds them has it
    have U : m.Unseen net h := ⟨hd, fun {n left} hn hl => by
      obtain ⟨a, hfeeds, hin⟩ := S.feeds_of_found hx hl
      exact Bool.false_ne_true (hn.symm.trans (hfolds a hin n hfeeds))⟩
    exact H₂.trans (Hushed.foldl Matching.Unseen.hushed (fun m U a _ =>
      Hushed.foldl Matching.Unseen.hushed (fun m U n _ =>
        Matching.hushed_retractRight U.deferring fun hn left => U.found hn) U) (U.hushed H₂))

end

end RuleNet
