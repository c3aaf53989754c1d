/-
  What a coalesced update does to results, and to what stands below them.

  A fact gets another value while results are deferred, and enters nothing but memories that feed nodes
  that fold. The results that rest on it are marked, and in the end those are made anew that differ.

  * `Matching.FoldsIn`, `Matching.Stirred`: the facts that are folded for a left token, and whether an update
    is about them.
  * `Matching.due?`: the result that is due for a left token.
  * `Stirring`, `Kept.stirring`: before the update ends nothing but marks and accumulators have changed.
  * `Matching.SameResult`: a result that the update is not about, or that is due as before.
  * `Coalescing.result_cases`: such a result is left alone, and others are made anew.
  * `Coalescing.origin_iff`: a token stays as long as the results above it do.
  * `Coalesced`, `Kept.coalesced`: all of it together.
-/
import RuleNet.Proofs.Matching.Hushed
import RuleNet.Proofs.Matching.Once

namespace RuleNet

open Matching (Extension)

/-! ## Subtrees -/

namespace Matching

variable {net : Network} {m : Matching} {a s t : TokenId}

theorem lives_of_mem_subtree (hs : s ∈ m.subtree a) : m.Lives a := by
  unfold subtree at hs
  split at hs
  · next hlive =>
    rw [Std.ExtTreeMap.contains_eq_isSome_getElem?] at hlive
    obtain ⟨token, htoken⟩ := Option.isSome_iff_exists.1 hlive
    exact ⟨_, origin?_of_live htoken⟩
  · cases hs

theorem mem_subtree_self (F : m.Forest net) (h : m.Lives t) : t ∈ m.subtree t := by
  obtain ⟨o, ho⟩ := h
  exact (lowestFirst_subtree F ho fun _ => False).2

/-- A subtree has with each token its children. -/
theorem mem_subtree_of_parent (F : m.Forest net) {o : Origin} (ho : m.origin? t = some o)
    (hp : o.parent = some s) (hs : s ∈ m.subtree a) : t ∈ m.subtree a := by
  obtain ⟨oa, hoa⟩ := lives_of_mem_subtree hs
  refine F.upward (P := fun a => s ∈ m.subtree a → t ∈ m.subtree a) ?_ a oa hoa hs
  intro a token htoken ih hs
  rw [subtree_eq F htoken] at hs ⊢
  rcases List.mem_append.1 hs with hs | hs
  · obtain ⟨c, hc, hs⟩ := List.mem_flatMap.1 hs
    exact List.mem_append_left _ (List.mem_flatMap.2 ⟨c, hc, ih c hc hs⟩)
  · obtain rfl := List.mem_singleton.1 hs
    obtain ⟨token', htoken', hc⟩ := F.children.2 ⟨o, ho, hp⟩
    obtain rfl := Option.some.inj (htoken.symm.trans htoken')
    exact List.mem_append_left _ (List.mem_flatMap.2 ⟨t, hc, mem_subtree_self F ⟨o, ho⟩⟩)

/-! ## Results -/

/-- A fact is folded into the result of a left token. -/
def FoldsIn (m : Matching) (n : NodeId) (left : TokenId) (h : Handle) : Prop :=
  ∃ acc, (m.node n).accumulators[left]? = some acc ∧ acc.contains h = true

/-- An update of a fact is about the result of a left token: the fact is folded before or after, or other
    facts are folded after than before. -/
def Stirred (m m' : Matching) (h : Handle) (n : NodeId) (left : TokenId) : Prop :=
  m.FoldsIn n left h ∨ m'.FoldsIn n left h ∨ ∃ i, ¬ (m.FoldsIn n left i ↔ m'.FoldsIn n left i)

/-- The result that is due for a left token: what its facts fold to, if that is defined and meets the
    condition on it. -/
def due? (m : Matching) (net : Network) (store : WorkingMemory) (n : NodeId) (left : TokenId) :
    Option Value :=
  match net.kind? n, (m.node n).accumulators[left]? with
  | some (.accumulate _ _ having), some acc => m.gatedResult? store having left acc
  | _, _ => none

/-- A left token of a node that folds which is there before and after. -/
structure Remains (net : Network) (m m' : Matching) (n : NodeId) (left : TokenId) : Prop where
  folds : (net.kind? n).any NodeKind.folds = true
  before : m.LeftOf net n left
  after : m'.Lives left

instance (m : Matching) (t : TokenId) : Decidable (m.Lives t) :=
  decidable_of_iff ((m.origin? t).isSome = true) Option.isSome_iff_exists

instance (net : Network) (m m' : Matching) (n : NodeId) (left : TokenId) :
    Decidable (Remains net m m' n left) :=
  decidable_of_iff ((net.kind? n).any NodeKind.folds = true ∧
      (∃ node ∈ net.node? n, ∃ o ∈ m.origin? left, o.node = node.parent) ∧ m'.Lives left)
    ⟨fun h => ⟨h.1, h.2.1, h.2.2⟩, fun h => ⟨h.folds, h.before, h.after⟩⟩

/-- Either an update is not about the result of a left token, or the result that is due afterwards equals the
    one that was due before. -/
def SameResult (net : Network) (store store' : WorkingMemory) (h : Handle) (m m' : Matching) : Spots :=
  fun n left => m.Stirred m' h n left →
    (m.due? net store n left == m'.due? net store' n left) = true

/-- A token that carries a result. -/
def CarriesResult (m : Matching) (net : Network) (t : TokenId) : Prop :=
  ∃ o n, m.origin? t = some o ∧ o.node = some n ∧ (net.kind? n).any NodeKind.folds = true

variable {store : WorkingMemory} {x : Ledger} {m' : Matching} {n : NodeId} {left : TokenId}
  {feed : Feed} {fold : Fold} {having : Option (Operator × TestOperand Place)}

theorem KeepsOutput.standing (h : m.KeepsOutput m' n left) :
    m'.standing? n left = m.standing? n left := by
  rw [standing?_eq_bind, standing?_eq_bind, h.1]
  cases hout : (m.about n left).output with
  | none => rfl
  | some t => rw [Option.bind_some, Option.bind_some, h.2 t hout]

theorem due?_eq (W : net.WellFormed) (F : m.Forest net) (hl : m.Lives left)
    (hk : net.kind? n = some (.accumulate feed fold having)) {acc : Accumulator}
    (hacc : (m.about n left).accumulator = some acc) :
    m.due? net store n left = (m.matchOf left).gated? store having acc := by
  obtain ⟨o, ho⟩ := hl
  have hacc : (m.node n).accumulators[left]? = some acc := hacc
  simp only [due?, hk, hacc, gatedResult?_eq W F ho]

/-- What is due depends on what a node keeps, and on how the left token came to be. -/
theorem due?_congr (hnode : m'.node n = m.node n) (hchain : m'.chain left = m.chain left) :
    m'.due? net store n left = m.due? net store n left := by
  simp only [due?, gatedResult?, hnode, view_congr (congrArg (List.map _) hchain) store]

/-- Only accumulators fold. -/
theorem Remains.kind (h : Remains net m m' n left) :
    ∃ feed fold having, net.kind? n = some (.accumulate feed fold having) := by
  obtain ⟨kind, hk, hfolds⟩ := (Option.any_eq_true _ _).1 h.folds
  cases kind with
  | accumulate feed fold having => exact ⟨feed, fold, having, hk⟩
  | _ => cases hfolds

/-- Looking at a result that is on time does nothing. -/
theorem settle_of_onTime (W : net.WellFormed) (F : m.Forest net) (hl : m.Lives left)
    (h : m.OnTime net store n left) : m.settle net store n left = m := by
  unfold settle
  split
  · next hk hacc =>
    obtain ⟨o, ho⟩ := hl
    have hon := h _ _ _ _ hk hacc
    rw [← gatedResult?_eq W F ho] at hon
    exact if_pos hon
  · rfl

end Matching

/-! ## Until the update ends -/

section
variable {net : Network} {store store' : WorkingMemory} {x : Ledger} {m m' : Matching} {h : Handle}
  {n : NodeId} {node : BetaNode} {left : TokenId} {feed : Feed} {fold : Fold}
  {having : Option (Operator × TestOperand Place)}

/-- The facts that are folded are those that go with the left token. -/
theorem Sound.foldsIn_iff (S : Sound net store x m) (hx : x.Still) (hn : net.node? n = some node)
    (hk : node.kind = .accumulate feed fold having) (hl : m.LiveAt left node.parent) (i : Handle) :
    m.FoldsIn n left i ↔ i ∈ (m.matchOf left).partners store m.members feed := by
  have hfeed : node.kind.feed? = some feed := by
    rw [hk]
    rfl
  have hknows := S.knows_iff hx hn hl hfeed (by rw [hk]; rfl) i
  rw [hk] at hknows
  exact hknows

/-- While results are deferred, those are marked whose facts change, and all stand as they stood. -/
theorem Turns.marks (D : Turns net store m m') (hd : m.deferred.isSome = true)
    (hk : net.kind? n = some (.accumulate feed fold having)) (hlt : left < m.nextToken)
    (hl : m'.Lives left) : m.KeepsOutput m' n left ∧ ((m'.about n left).marked = true ↔
      (m.about n left).marked = true ∨ ∃ i, ¬ (m.FoldsIn n left i ↔ m'.FoldsIn n left i)) := by
  rcases D.spots hlt hl with hu | ⟨kind, hk', hdiff, hturn⟩
  · have hacc : (m'.node n).accumulators[left]? = (m.node n).accumulators[left]? :=
      congrArg LeftRecord.accumulator hu.1
    refine ⟨hu.keeps, ?_⟩
    rw [hu.1, or_iff_left]
    rintro ⟨i, hi⟩
    exact hi (by rw [Matching.FoldsIn, Matching.FoldsIn, hacc])
  · cases Option.some.inj (hk.symm.trans hk')
    obtain ⟨hkeep, hmark⟩ := hturn.1 hd
    exact ⟨hkeep, iff_of_true hmark (.inr hdiff)⟩

/-- Where a fact goes and others come and go after it, what changes on the way is what is different in the
    end, and the fact itself. -/
theorem changes_on_the_way {P Q R : Handle → Prop} (hQ : ∀ i, Q i ↔ P i ∧ i ≠ h) :
    (∃ i, ¬ (P i ↔ Q i)) ∨ (∃ i, ¬ (Q i ↔ R i)) ↔ P h ∨ R h ∨ ∃ i, ¬ (P i ↔ R i) := by
  have hno : ¬ Q h := fun hq => ((hQ h).1 hq).2 rfl
  have hsame : ∀ {i}, i ≠ h → (Q i ↔ P i) := fun hne => (hQ _).trans (and_iff_left hne)
  constructor
  · rintro (⟨i, hi⟩ | ⟨i, hi⟩)
    · by_cases heq : i = h
      · subst heq
        exact .inl (Classical.byContradiction fun hp => hi (iff_of_false hp hno))
      · exact absurd (hsame heq).symm hi
    · by_cases heq : i = h
      · subst heq
        exact .inr (.inl (Classical.byContradiction fun hr => hi (iff_of_false hno hr)))
      · exact .inr (.inr ⟨i, fun hpr => hi ((hsame heq).trans hpr)⟩)
  · rintro (hp | hr | ⟨i, hi⟩)
    · exact .inl ⟨h, fun hpq => hno (hpq.1 hp)⟩
    · exact .inr ⟨h, fun hqr => hno (hqr.2 hr)⟩
    · by_cases hp : P i ↔ Q i
      · exact .inr ⟨i, fun hqr => hi (hp.trans hqr)⟩
      · exact .inl ⟨i, hp⟩

/-- A fact has got another value and the update has not ended: results stand as they stood, and those are
    marked that the update is about. -/
structure Stirring (net : Network) (store : WorkingMemory) (x : Ledger) (h : Handle)
    (m m' : Matching) : Prop where
  kept : Kept net store x m'
  tokens : m'.tokens = m.tokens
  nextToken : m'.nextToken = m.nextToken
  events : m'.events = m.events
  deferring : m'.deferred.isSome = true
  marks : ∀ {n feed fold having left}, net.kind? n = some (.accumulate feed fold having) →
    m.LeftOf net n left → m.KeepsOutput m' n left ∧
      ((m'.about n left).marked = true ↔ m.Stirred m' h n left)

/-- An update begins, and a fact gets another value. -/
theorem Kept.stirring (W : net.WellFormed) (k : Kept net store x m) (hx : x.Quiet) (hs : x.Still)
    (htwice : ∀ n left, net.Exposed n → x.twice n left h) (hd : m.deferred = none)
    {fact : Fact} {entry : Entry} (hf : store.fact? h = some fact)
    (hentry : ∀ j, store'.entry? j = if h = j then some entry else store.entry? j) {now : Moment}
    (hleaves : ∀ a, h ∈ m.members a → net.OnlyFolds a)
    (henters : ∀ a, net.takes now entry a = true → net.OnlyFolds a)
    (hm' : (m.beginUpdate.retract net store h).assert net store' h now = m') :
    Stirring net store' x h m m' := by
  have kb := k.beginUpdate
  have hdeferring : m.beginUpdate.deferred.isSome = true := rfl
  have H₁ := kb.sound.hushed_retract hs hdeferring hleaves
  have R := kb.retract W hx hf rfl
  have D₁ := kb.turns_retract W hx hf rfl
  generalize m.beginUpdate.retract net store h = m₁ at hm' H₁ R D₁
  have hsame : ∀ j, j ≠ h → store'.entry? j = store.entry? j := fun j hj =>
    (hentry j).trans (if_neg (Ne.symm hj))
  have k₁ := R.kept.restock hx.idle hs.told fun a j hj => hsame j (R.members.1 hj).2
  have he : store'.entry? h = some entry := (hentry h).trans (if_pos rfl)
  have habsent : ∀ a, h ∉ m₁.members a := fun a hi => (R.members.1 hi).2 rfl
  have hdeferring₁ := R.deferring.trans hdeferring
  have H₂ := (Matching.Deferring.of_chained k₁.sound.toChained hdeferring₁).hushed_assert W k₁ he henters
  have D₂ := k₁.turns_assert W hx hs.told he habsent htwice hm'
  rw [hm'] at H₂
  have H := H₁.trans H₂
  refine ⟨(k₁.assert W hx hs.told he habsent htwice hm').1, H.tokens, H.nextToken, H.events,
    H.deferring.trans hdeferring, fun {n feed fold having left} hk hl => ?_⟩
  obtain ⟨node, hn, o, ho, hnode⟩ := hl
  have hkind : node.kind = .accumulate feed fold having :=
    Option.some.inj ((Network.kind?_eq hn).symm.trans hk)
  have hob : m.beginUpdate.origin? left = some o := ho
  have ho₁ : m₁.origin? left = some o := by rw [Matching.origin?_congr H₁.tokens]; exact hob
  have ho₂ : m'.origin? left = some o := by rw [Matching.origin?_congr H₂.tokens]; exact ho₁
  obtain ⟨hkeep₁, hmark₁⟩ := D₁.marks hdeferring hk (kb.sound.forest.lt_next hob) ⟨o, ho₁⟩
  obtain ⟨hkeep₂, hmark₂⟩ := D₂.marks hdeferring₁ hk (k₁.sound.forest.lt_next ho₁) ⟨o, ho₂⟩
  have hfolds : ∀ i, m₁.FoldsIn n left i ↔ m.beginUpdate.FoldsIn n left i ∧ i ≠ h := fun i => by
    rw [R.kept.sound.foldsIn_iff hs hn hkind ⟨o, ho₁, hnode⟩,
      kb.sound.foldsIn_iff hs hn hkind ⟨o, hob, hnode⟩, Matching.matchOf_congr H₁.tokens,
      Match.mem_partners, Match.mem_partners, R.members, and_right_comm]
  have hno : ¬ (m.beginUpdate.about n left).marked = true := by
    rw [m.about_beginUpdate, Matching.not_marked (by rw [hd]; rfl)]
    exact Bool.false_ne_true
  refine ⟨hkeep₁.trans hkeep₂, ?_⟩
  rw [hmark₂, hmark₁, or_iff_right hno]
  exact changes_on_the_way hfolds

end

/-! ## When the update ends -/

/-- Results that are equal equal the same results. -/
theorem Option.beq_congr_left {α : Type} [BEq α] [PartialEquivBEq α] {a b : Option α}
    (h : (a == b) = true) (c : Option α) : (a == c) = (b == c) := by
  cases a with
  | none =>
    cases b with
    | none => rfl
    | some w => cases h
  | some v =>
    cases b with
    | none => cases h
    | some w =>
      rw [Option.some_beq_some] at h
      cases c with
      | none => rfl
      | some u => rw [Option.some_beq_some, Option.some_beq_some, BEq.congr_left h]

/-- An update under way and its end. No results are marked when it begins, and those that stand are as good as
    the ones that are due. -/
structure Coalescing (net : Network) (store store' : WorkingMemory) (x : Ledger) (h : Handle)
    (dirty : Std.ExtTreeSet (NodeId × TokenId) dictionary) (m mid m' : Matching) : Prop where
  wellFormed : net.WellFormed
  still : x.Still
  punctual : ∀ n left, ¬ x.stale n left
  agree : ∀ {a b}, x.agree a b → a = b ∨ (a == b) = true
  sound : Sound net store x m
  unmarked : ∀ n left, (m.about n left).marked = false
  stirring : Stirring net store' x h m mid
  deferred : mid.deferred = some dirty
  ended : mid.endUpdate net store' = m'
  reviewed : Reviewed net store' x dirty mid m'

namespace Coalescing

variable {net : Network} {store store' : WorkingMemory} {x : Ledger} {h : Handle}
  {dirty : Std.ExtTreeSet (NodeId × TokenId) dictionary} {m mid m' : Matching} {n : NodeId}
  {left t : TokenId} {o : Origin} {feed : Feed} {fold : Fold}
  {having : Option (Operator × TestOperand Place)} (C : Coalescing net store store' x h dirty m mid m')
include C

theorem origin_mid (t : TokenId) : mid.origin? t = m.origin? t := by
  rw [Matching.origin?_congr C.stirring.tokens]

theorem nextToken_mid : mid.nextToken = m.nextToken := C.stirring.nextToken

/-- What lives in the end lived before, as it is. -/
theorem survive (hlt : t < m.nextToken) (ho : m'.origin? t = some o) : m.origin? t = some o := by
  rw [← C.origin_mid]
  exact C.reviewed.spares.survive (C.nextToken_mid.symm ▸ hlt) ho

/-- The result that stands equals the one that is due, as far as comparing them tells. -/
theorem standing_beq (hk : net.kind? n = some (.accumulate feed fold having))
    (hl : m.LeftOf net n left) (result : Option Value) :
    (m.standing? n left == result) = (m.due? net store n left == result) := by
  obtain ⟨node, hn, hlive⟩ := hl
  have hs := C.sound.settled hn hlive (C.still.idle n left)
  have hkind : node.kind = .accumulate feed fold having :=
    Option.some.inj ((Network.kind?_eq hn).symm.trans hk)
  rw [hkind] at hs
  obtain ⟨acc, output, marked, standing, habout, -, -, hp, hagree⟩ := hs
  have hmark := C.unmarked n left
  have hacc : (m.about n left).accumulator = some acc := by rw [habout]
  rw [habout] at hmark
  rw [show output = (m.about n left).output by rw [habout]] at hp
  obtain ⟨o, ho, -⟩ := hlive
  rw [Matching.standing?_eq hp, Matching.due?_eq C.wellFormed C.sound.forest ⟨o, ho⟩ hk hacc]
  rcases hagree with hm | hstale | hagree
  · exact absurd (hm.symm.trans hmark) nofun
  · exact absurd hstale (C.punctual n left)
  · rcases C.agree hagree with heq | heq
    · rw [heq]
    · exact Option.beq_congr_left heq _

/-- There is an accumulator for every left token. -/
theorem accumulator_mid (hk : net.kind? n = some (.accumulate feed fold having))
    (hl : m.LeftOf net n left) : ∃ acc, (mid.about n left).accumulator = some acc := by
  obtain ⟨node, hn, o, ho, hnode⟩ := hl
  have hs := C.stirring.kept.sound.settled hn ⟨o, (C.origin_mid left).trans ho, hnode⟩
    (C.still.idle n left)
  have hkind : node.kind = .accumulate feed fold having :=
    Option.some.inj ((Network.kind?_eq hn).symm.trans hk)
  rw [hkind] at hs
  obtain ⟨acc, output, marked, standing, habout, -⟩ := hs
  exact ⟨acc, by rw [habout]⟩

/-- The end of the update changes no accumulators. -/
theorem accumulator_end (hlt : left < m.nextToken) (hl' : m'.Lives left) :
    (m'.about n left).accumulator = (mid.about n left).accumulator := by
  rcases C.reviewed.spares.spots (C.nextToken_mid.symm ▸ hlt) hl' with hu | ⟨-, feed, fold, having, acc,
    -, hacc, hacc', -⟩
  · have hacc := congrArg LeftRecord.accumulator hu.1
    exact hacc
  · exact hacc'.trans hacc.symm

/-- The results that are looked at in the end are those that the update is about. -/
theorem stirred_iff (hk : net.kind? n = some (.accumulate feed fold having))
    (hl : m.LeftOf net n left) (hl' : m'.Lives left) :
    m.Stirred m' h n left ↔ (n, left) ∈ dirty.toList := by
  have hlt : left < m.nextToken := by
    obtain ⟨node, -, o, ho, -⟩ := hl
    exact C.sound.forest.lt_next ho
  have hget : (m'.node n).accumulators[left]? = (mid.node n).accumulators[left]? :=
    C.accumulator_end hlt hl'
  rw [← Matching.isMarked_iff C.deferred, (C.stirring.marks hk hl).2]
  simp only [Matching.Stirred, Matching.FoldsIn, hget]

/-- A result is on time when the update ends if the one that is due equals the one that was due. -/
theorem onTime_iff (hk : net.kind? n = some (.accumulate feed fold having))
    (hl : m.LeftOf net n left) (hl' : m'.Lives left) :
    Matching.OnTime net store' { mid with deferred := none } n left ↔
      (m.due? net store n left == m'.due? net store' n left) = true := by
  have hlt : left < m.nextToken := by
    obtain ⟨node, -, o, ho, -⟩ := hl
    exact C.sound.forest.lt_next ho
  obtain ⟨acc, hacc⟩ := C.accumulator_mid hk hl
  have hacc' := (C.accumulator_end (n := n) hlt hl').trans hacc
  have hsame : Matching.matchOf { mid with deferred := none } = mid.matchOf := Matching.matchOf_congr rfl
  have hmatch : m'.matchOf left = mid.matchOf left := by
    obtain ⟨o, ho⟩ := hl'
    exact C.stirring.kept.sound.forest.matchOf_survive C.reviewed.sound.forest
      C.reviewed.spares.survive ho (C.nextToken_mid.symm ▸ hlt)
  have hstand : Matching.standing? { mid with deferred := none } n left = m.standing? n left :=
    (C.stirring.marks hk hl).1.standing
  rw [← C.standing_beq hk hl, Matching.due?_eq C.wellFormed C.reviewed.sound.forest hl' hk hacc', hmatch]
  constructor
  · intro hon
    have hon := hon feed fold having acc hk hacc
    rwa [hstand, hsame] at hon
  · intro hbeq feed' fold' having' acc' hk' hacc'
    cases Option.some.inj (hk.symm.trans hk')
    obtain rfl := Option.some.inj (hacc.symm.trans hacc')
    rwa [hstand, hsame]

/-- A result is left alone where it is the same, and made anew where it is not. -/
theorem result_cases (hr : Matching.Remains net m m' n left) :
    (Matching.SameResult net store store' h m m' n left ∧ m.KeepsOutput m' n left) ∨
    (¬ Matching.SameResult net store store' h m m' n left ∧ m.NewOutput m' n left ∧
      m'.standing? n left = m'.due? net store' n left) := by
  obtain ⟨feed, fold, having, hk⟩ := hr.kind
  obtain ⟨-, hl, hl'⟩ := hr
  have hlt : left < mid.nextToken := by
    obtain ⟨node, -, o, ho, -⟩ := hl
    exact C.nextToken_mid.symm ▸ C.sound.forest.lt_next ho
  rcases C.reviewed.spares.spots hlt hl' with hu | ⟨hin, feed', fold', having', acc, hk', hacc, hacc',
    hlate, hnew, hstand⟩
  · refine .inl ⟨fun hs => ?_, (C.stirring.marks hk hl).1.trans hu.keeps⟩
    have hin := (C.stirred_iff hk hl hl').1 hs
    exact (C.onTime_iff hk hl hl').1 (C.reviewed.onTime hin hlt hl' hu)
  · refine .inr ⟨fun hsame => ?_, fun t ht => C.nextToken_mid ▸ hnew t ht, ?_⟩
    · have hbeq := hsame ((C.stirred_iff hk hl hl').2 hin)
      have hon := (C.onTime_iff hk hl hl').2 hbeq feed' fold' having' acc hk' hacc
      exact Bool.false_ne_true (hlate.symm.trans hon)
    · rw [hstand, Matching.due?_eq C.wellFormed C.reviewed.sound.forest hl' hk' hacc']

/-- A result that is made anew is passed on once, and the old token goes. -/
theorem anew (hr : Matching.Remains net m m' n left)
    (hdiffers : ¬ Matching.SameResult net store store' h m m' n left) :
    (∀ t, (m.about n left).output = some t → ¬ m'.Lives t) ∧
    ∃ output, Passes (m'.Made n left) output ((m'.due? net store' n left).map .result) ∧
      ∀ t, output = some t → m.nextToken ≤ t := by
  obtain ⟨hnew, hstand⟩ := ((C.result_cases hr).resolve_left fun h => hdiffers h.1).2
  obtain ⟨feed, fold, having, hk⟩ := hr.kind
  obtain ⟨-, ⟨node, hn, o, ho, hnode⟩, o', ho'⟩ := hr
  have hkind : node.kind = .accumulate feed fold having :=
    Option.some.inj ((Network.kind?_eq hn).symm.trans hk)
  have hlt := C.sound.forest.lt_next ho
  obtain rfl := Option.some.inj (ho.symm.trans (C.survive hlt ho'))
  have hs := C.sound.settled hn ⟨o, ho, hnode⟩ (C.still.idle n left)
  have hs' := C.reviewed.sound.settled hn ⟨o, ho', hnode⟩ (C.still.idle n left)
  refine ⟨fun t ht ⟨ot, hot⟩ => ?_, ?_⟩
  · -- if the old token were there, it would be the output still
    obtain ⟨hjoin, e, depth, hmade⟩ := hs.made_output ht
    have htlt := C.sound.forest.lt_next hmade
    obtain rfl := Option.some.inj (hmade.symm.trans (C.survive htlt hot))
    have hout := hs'.output hjoin ⟨depth, hot⟩
    exact Nat.not_lt.2 (hnew t hout) htlt
  · rw [hkind] at hs'
    obtain ⟨acc, output, marked, result, habout, -, -, hp, -⟩ := hs'
    have hout : output = (m'.about n left).output := by rw [habout]
    rw [hout] at hp
    rw [← hstand, Matching.standing?_eq hp]
    exact ⟨_, hp, hnew⟩

/-! ### Tokens -/

/-- What a node other than a join has made is its output, also while the update goes on. -/
theorem output_mid {node : BetaNode} {above : Origin} {p : TokenId} (hn : net.node? n = some node)
    (hjoin : node.kind.isJoin = false) (ho : m.origin? t = some o) (hp : o.parent = some p)
    (hnode : o.node = some n) (habove : m.origin? p = some above) (heq : above.node = node.parent) :
    (mid.about n p).output = some t := by
  have hlive : mid.LiveAt p node.parent := ⟨above, (C.origin_mid p).trans habove, heq⟩
  exact (C.stirring.kept.sound.settled hn hlive (C.still.idle n p)).output hjoin
    (Matching.made_of_origin ((C.origin_mid t).trans ho) hnode hp)

/-- A token stays with the token above it, unless it carries a result. -/
theorem stays {node : BetaNode} {above : Origin} {p : TokenId} (hn : net.node? n = some node)
    (hfolds : node.kind.folds = false) (ho : m.origin? t = some o) (hp : o.parent = some p)
    (hnode : o.node = some n) (habove : m.origin? p = some above) (heq : above.node = node.parent)
    (hlives : m'.Lives p) : m'.origin? t = some o := by
  have hmid := (C.origin_mid t).trans ho
  have hlt : p < mid.nextToken := C.nextToken_mid.symm ▸ C.sound.forest.lt_next habove
  cases hjoin : node.kind.isJoin with
  | true =>
    have hcarries := C.sound.carries (Matching.made_of_origin ho hnode hp) (Network.kind?_eq hn)
    obtain ⟨i, hi⟩ := hcarries.fact hjoin
    exact C.reviewed.spares.joins hmid hnode hp (by rw [hi]; rfl) id hlt hlives
  | false =>
    have hout := C.output_mid hn hjoin ho hp hnode habove heq
    rcases C.reviewed.spares.spots hlt hlives with hu | ⟨-, feed, fold, having, acc, hk, -⟩
    · exact (hu.2 t hout).trans hmid
    · rw [Option.some.inj ((Network.kind?_eq hn).symm.trans hk)] at hfolds
      cases hfolds

/-- What is above a token that stays stays. -/
theorem lives_above (hlives : m'.Lives t) {a : TokenId} (ha : t ∈ m.subtree a) : m'.Lives a := by
  obtain ⟨oa, hoa⟩ := Matching.lives_of_mem_subtree ha
  induction t using Nat.strongRecOn with
  | ind t ih =>
    rcases Matching.parent_of_mem_subtree C.sound.forest hoa ha with rfl | ⟨o, p, ho, hp, hpa⟩
    · exact hlives
    · have hlt := C.sound.forest.lt_of_parent ho hp
      refine ih p hlt ?_ hpa
      obtain ⟨o', ho'⟩ := hlives
      obtain rfl := Option.some.inj (ho.symm.trans (C.survive (C.sound.forest.lt_next ho) ho'))
      have hne : t ≠ rootToken := by
        rintro rfl
        exact Nat.not_lt_zero p hlt
      obtain ⟨p', -, -, above, hp', -, -, -, habove, -⟩ := C.reviewed.sound.forest.made ho' hne
      obtain rfl := Option.some.inj (hp.symm.trans hp')
      exact ⟨above, habove⟩

/-- A token stays as long as the results above it do. -/
theorem origin_iff (ho : m.origin? t = some o) : m'.origin? t = some o ↔
    ∀ a, t ∈ m.subtree a → m.CarriesResult net a → m'.Lives a := by
  constructor
  · exact fun ho' a ha _ => C.lives_above ⟨o, ho'⟩ ha
  · have F := C.sound.forest
    refine F.induction (P := fun t o => (∀ a, t ∈ m.subtree a → m.CarriesResult net a → m'.Lives a) →
      m'.origin? t = some o) (fun _ => C.reviewed.sound.forest.root) ?_ t o ho
    intro t p n node o above ho hp hn hnode _ habove heq _ ih hall
    have hp' := ih fun a ha => hall a (Matching.mem_subtree_of_parent F ho hp ha)
    cases hfolds : node.kind.folds with
    | true =>
      obtain ⟨o', ho'⟩ := hall t (Matching.mem_subtree_self F ⟨o, ho⟩)
        ⟨o, n, ho, hn, by rw [Network.kind?_eq hnode]; exact hfolds⟩
      obtain rfl := Option.some.inj (ho.symm.trans (C.survive (F.lt_next ho) ho'))
      exact ho'
    | false => exact C.stays hnode hfolds ho hp hn habove heq ⟨above, hp'⟩

/-! ### Nothing to do -/

/-- Where all results are the same, all tokens stay. -/
theorem lives_of_same (hsame : ∀ {n left}, Matching.Remains net m m' n left →
      Matching.SameResult net store store' h m m' n left) {a : TokenId} (ha : m.Lives a) :
    m'.Lives a := by
  obtain ⟨o, ho⟩ := ha
  refine C.sound.forest.induction (P := fun a o => m'.Lives a) ⟨_, C.reviewed.sound.forest.root⟩ ?_ a o ho
  intro t p n node o above ho hp hn hnode _ habove heq _ hlives
  cases hfolds : node.kind.folds with
  | false => exact ⟨o, C.stays hnode hfolds ho hp hn habove heq hlives⟩
  | true =>
    have hr : Matching.Remains net m m' n p := by
      refine ⟨?_, ⟨node, hnode, above, habove, heq⟩, hlives⟩
      rw [Network.kind?_eq hnode]
      exact hfolds
    have hkeep := ((C.result_cases hr).resolve_right fun h => h.1 (hsame hr)).2
    have hjoin : node.kind.isJoin = false := by
      cases hkind : node.kind with
      | accumulate feed fold having => rfl
      | _ => rw [hkind] at hfolds; cases hfolds
    have hs := C.sound.settled hnode ⟨above, habove, heq⟩ (C.still.idle n p)
    exact ⟨o, (hkeep.2 t (hs.output hjoin (Matching.made_of_origin ho hn hp))).trans ho⟩

/-- Where all results are the same, the update ends without a trace. -/
theorem untouched (hsame : ∀ {n left}, Matching.Remains net m m' n left →
      Matching.SameResult net store store' h m m' n left) : m' = { mid with deferred := none } := by
  have Fmid : Matching.Forest { mid with deferred := none } net :=
    C.stirring.kept.sound.forest.congr rfl rfl
  -- every result that is looked at is on time
  have hon : ∀ r ∈ dirty.toList,
      Matching.settle net store' r.1 r.2 { mid with deferred := none } =
        { mid with deferred := none } := by
    rintro ⟨n, left⟩ hin
    obtain ⟨node, hn, o, ho, hnode⟩ := C.stirring.kept.sound.left_of_marked C.deferred hin
    refine Matching.settle_of_onTime C.wellFormed Fmid ⟨o, ho⟩ ?_
    have hold : m.origin? left = some o := (C.origin_mid left).symm.trans ho
    have hlives := C.lives_of_same hsame ⟨o, hold⟩
    intro feed fold having acc hk hacc
    have hl : m.LeftOf net n left := ⟨node, hn, o, hold, hnode⟩
    have hr : Matching.Remains net m m' n left := ⟨by rw [hk]; rfl, hl, hlives⟩
    exact (C.onTime_iff hk hl hlives).2 (hsame hr ((C.stirred_iff hk hl hlives).2 hin))
      feed fold having acc hk hacc
  have hfold : ∀ results : List (NodeId × TokenId), (∀ r ∈ results, r ∈ dirty.toList) →
      results.foldl (fun m r => m.settle net store' r.1 r.2) { mid with deferred := none } =
        { mid with deferred := none } := by
    intro results
    induction results with
    | nil => exact fun _ => rfl
    | cons r rest ih =>
      intro hall
      rw [List.foldl_cons, hon r (hall r List.mem_cons_self)]
      exact ih fun r' hr' => hall r' (List.mem_cons_of_mem r hr')
  rw [← C.ended, Matching.endUpdate, C.deferred]
  exact hfold dirty.toList fun _ => id

end Coalescing

/-! ## All of it -/

/-- What an update of a fact has done to results and tokens. -/
structure Coalesced (net : Network) (store store' : WorkingMemory) (h : Handle) (m m' : Matching) :
    Prop where
  /-- Results that are the same are left alone. -/
  kept : ∀ {n left}, m.Remains net m' n left → Matching.SameResult net store store' h m m' n left →
    m.KeepsOutput m' n left
  /-- Of others the token goes, and the one that is due is passed on once. -/
  anew : ∀ {n left}, m.Remains net m' n left → ¬ Matching.SameResult net store store' h m m' n left →
    (∀ t, (m.about n left).output = some t → ¬ m'.Lives t) ∧
    ∃ output, Passes (m'.Made n left) output ((m'.due? net store' n left).map .result) ∧
      ∀ t, output = some t → m.nextToken ≤ t
  /-- Whatever has been made stands. -/
  made : ∀ {t}, m.nextToken ≤ t → t < m'.nextToken → m'.Lives t
  /-- A token stays as long as the results above it do. -/
  stays : ∀ {t o}, m.origin? t = some o → (m'.origin? t = some o ↔
    ∀ a, t ∈ m.subtree a → m.CarriesResult net a → m'.Lives a)
  /-- Where all results are the same, no token comes or goes, and nothing is told. -/
  silent : (∀ {n left}, m.Remains net m' n left →
    Matching.SameResult net store store' h m m' n left) →
    m'.tokens = m.tokens ∧ m'.nextToken = m.nextToken ∧ m'.events = m.events

/-- A fact gets another value, and nothing but results rests on it. -/
theorem Kept.coalesced {net : Network} {store store' : WorkingMemory} {x : Ledger} {m m' : Matching}
    {h : Handle} (W : net.WellFormed) (k : Kept net store x m) (hx : x.Quiet) (hs : x.Still)
    (hstale : ∀ n left, ¬ x.stale n left)
    (hclose : ∀ a b : Option Value, (a == b) = true → x.agree a b)
    (hagree : ∀ {a b}, x.agree a b → a = b ∨ (a == b) = true)
    (htwice : ∀ n left, net.Exposed n → x.twice n left h) (hd : m.deferred = none)
    {fact : Fact} {entry : Entry} (hf : store.fact? h = some fact)
    (hentry : ∀ j, store'.entry? j = if h = j then some entry else store.entry? j) {now : Moment}
    (hleaves : ∀ a, h ∈ m.members a → net.OnlyFolds a)
    (henters : ∀ a, net.takes now entry a = true → net.OnlyFolds a)
    (hm' : ((m.beginUpdate.retract net store h).assert net store' h now).endUpdate net store' = m') :
    Coalesced net store store' h m m' := by
  obtain ⟨mid, hmid⟩ : ∃ mid, (m.beginUpdate.retract net store h).assert net store' h now = mid :=
    ⟨_, rfl⟩
  have St := k.stirring W hx hs htwice hd hf hentry hleaves henters hmid
  rw [hmid] at hm'
  obtain ⟨dirty, hdirty⟩ := Option.isSome_iff_exists.1 St.deferring
  have C : Coalescing net store store' x h dirty m mid m' := ⟨W, hs, hstale, hagree, k.sound,
    fun n left => Matching.not_marked (by rw [hd]; rfl), St, hdirty, hm',
    St.kept.reviewed W hx hclose hdirty hm'⟩
  refine ⟨fun hr hsame => ((C.result_cases hr).resolve_right fun h => h.1 hsame).2, C.anew,
    fun hle hlt => ?_, C.origin_iff, fun hsame => ?_⟩
  · exact St.kept.lives_endUpdate W hx hclose hm' (St.nextToken.symm ▸ hle) hlt
  · rw [C.untouched hsame]
    exact ⟨St.tokens, St.nextToken, St.events⟩

end RuleNet
