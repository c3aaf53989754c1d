/-
  Steps that only touch what alpha memories hold.

  * `Shelves`: such a step; `Sound.shelve`: facts that come and go are late at the nodes they feed.
  * `Matching.offerAll_spec`: a fact enters the memories that take it.
  * `Housed`: every fact knows the memories that hold it.
-/
import RuleNet.Proofs.Matching.Stock
import RuleNet.Proofs.Matching.Writes

namespace RuleNet

/-- Whether a memory takes a fact, as far as its tests are concerned. -/
def Network.Takes (net : Network) (a : AlphaId) (fact : Fact) (moment : Moment) : Prop :=
  ∃ alpha, net.alpha? a = some alpha ∧ alpha.admits fact = true ∧
    Test.allHold .blank fact moment alpha.tests = true

/-- Every fact knows the memories that hold it. -/
structure Housed (m : Matching) : Prop where
  known : ∀ {h a}, h ∈ m.members a → ∃ alphas, m.memoriesOf[h]? = some alphas ∧ a ∈ alphas

theorem Housed.congr {m m' : Matching} (H : Housed m) (hmembers : m'.members = m.members)
    (hmemories : m'.memoriesOf = m.memoriesOf) : Housed m' :=
  ⟨fun hi => by rw [hmemories]; rw [hmembers] at hi; exact H.known hi⟩

/-- A step that changes nothing but alpha memories. -/
structure Shelves (m m' : Matching) : Prop where
  tokens : m'.tokens = m.tokens
  nextToken : m'.nextToken = m.nextToken
  tokensByFact : m'.tokensByFact = m.tokensByFact
  events : m'.events = m.events
  nodes : m'.nodes = m.nodes
  deferred : m'.deferred = m.deferred

namespace Shelves

variable {net : Network} {m m' m'' : Matching}

theorem refl : Shelves m m := ⟨rfl, rfl, rfl, rfl, rfl, rfl⟩

theorem trans (h : Shelves m m') (h' : Shelves m' m'') : Shelves m m'' where
  tokens := h'.tokens.trans h.tokens
  nextToken := h'.nextToken.trans h.nextToken
  tokensByFact := h'.tokensByFact.trans h.tokensByFact
  events := h'.events.trans h.events
  nodes := h'.nodes.trans h.nodes
  deferred := h'.deferred.trans h.deferred

theorem setAlpha (m : Matching) (a : AlphaId) (memory : AlphaMemory) :
    Shelves m (m.setAlpha a memory) :=
  ⟨rfl, rfl, rfl, rfl, rfl, rfl⟩

theorem leave (m : Matching) (a : AlphaId) (h : Handle) (fact : Fact) :
    Shelves m (m.leave a h fact) := by
  simp only [Matching.leave]
  split
  · exact setAlpha ..
  · exact refl

theorem node (h : Shelves m m') : m'.node = m.node := funext fun n => by
  rw [Matching.node, Matching.node, h.nodes]

theorem about (h : Shelves m m') : m'.about = m.about := by
  funext n left
  rw [Matching.about, Matching.about, h.node, Matching.isMarked, Matching.isMarked, h.deferred]

theorem evolves (h : Shelves m m') (F : m.Forest net) {B : Spots} : Evolves net B m m' where
  next := Nat.le_of_eq h.nextToken.symm
  survive _ ho := by rw [Matching.origin?_congr h.tokens] at ho; exact ho
  born hle hmade := by
    rw [Matching.made_congr h.tokens] at hmade
    obtain ⟨depth, ho⟩ := hmade
    exact absurd (F.lt_next ho) (Nat.not_lt.2 hle)

end Shelves

section
variable {net : Network} {store : WorkingMemory} {x : Ledger} {m m' : Matching}

/-- Facts come to alpha memories and leave them: they are late at the nodes these feed. -/
theorem Sound.shelve {late : NodeId → Handle → Prop} (S : Sound net store x m) (h : Shelves m m')
    (hle : ∀ {n i}, x.late n i → late n i)
    (hlose : ∀ {a n i}, net.Feeds a n → i ∈ m.members a → i ∉ m'.members a → late n i)
    (hgain : ∀ {a n i}, net.Feeds a n → i ∈ m'.members a → i ∉ m.members a →
      late n i ∧ ¬ x.late n i) :
    Sound net store { x with late } m' where
  toChained :=
    (S.toChained.congr h.tokens h.nextToken h.tokensByFact h.events).relabel rfl rfl
  blank {n left} hno := by
    rw [Matching.leftOf_congr h.tokens] at hno
    rw [h.about]
    exact S.blank hno
  nodes n := by
    rw [h.node]
    exact S.nodes n
  settled {n node left} hn hl hb := by
    rw [Matching.liveAt_congr h.tokens] at hl
    rw [Matching.matchOf_congr h.tokens, Matching.made_congr h.tokens, h.about]
    have hs := S.settled hn hl hb
    refine hs.recover _ fun feed hf => ?_
    have hfeeds : net.Feeds feed.alpha n := ⟨node.kind, feed, Network.kind?_eq hn, hf, rfl⟩
    exact (hs.covers hf).shift (fun _ => hle) (fun _ => hlose hfeeds) fun _ => hgain hfeeds

end

/-! ## Coming -/

/-- A fact has been tried on some memories and has entered those that take it. -/
structure Offered (net : Network) (store : WorkingMemory) (h : Handle) (entry : Entry)
    (tried entered : List AlphaId) (m m' : Matching) : Prop where
  shelves : Shelves m m'
  memoriesOf : m'.memoriesOf = m.memoriesOf
  stocked : Stocked net store m'
  sublist : entered.Sublist tried
  members : ∀ {b i}, i ∈ m'.members b ↔ (b ∈ entered ∧ i = h) ∨ i ∈ m.members b
  takes : ∀ b ∈ entered, net.Takes b entry.fact entry.moment

section
variable {net : Network} {store : WorkingMemory} {m : Matching} {h : Handle} {entry : Entry}

theorem Offered.none (K : Stocked net store m) (tried : List AlphaId) :
    Offered net store h entry tried [] m m where
  shelves := .refl
  memoriesOf := rfl
  stocked := K
  sublist := List.nil_sublist tried
  members {b i} := by simp
  takes b hb := absurd hb List.not_mem_nil

/-- A memory is told that one more fact arrives, which changes none of its members. -/
theorem Stocked.nextArrival (K : Stocked net store m) (a : AlphaId) :
    Stocked net store (m.nextArrival a).2 ∧ (m.nextArrival a).2.members = m.members := by
  have hmembers : (m.nextArrival a).2.members = m.members := by
    funext b
    simp only [Matching.members, Matching.nextArrival, Matching.alpha_setAlpha]
    split
    · next hab => rw [hab]
    · rfl
  have hbuckets : (m.nextArrival a).2.buckets = m.buckets := by
    funext b field
    simp only [Matching.buckets, Matching.nextArrival, Matching.alpha_setAlpha]
    split
    · next hab => rw [hab]
    · rfl
  exact ⟨K.congr hmembers hbuckets, hmembers⟩

/-- A fact is tried on a memory. -/
theorem Matching.offer_spec (K : Stocked net store m) (he : store.entry? h = some entry)
    {a : AlphaId} {alpha : AlphaNode} (ha : net.alpha? a = some alpha)
    (hadmits : alpha.admits entry.fact = true) {now : Moment} {entered : Bool} {m' : Matching}
    (hm' : m.offer net now h entry a = (entered, m')) :
    Offered net store h entry [a] (if entered then [a] else []) m m' := by
  have htype : entry.fact.type = alpha.type := by
    rw [AlphaNode.admits, Bool.and_eq_true, beq_iff_eq] at hadmits
    exact hadmits.1.symm
  have hno : (false, m) = (entered, m') →
      Offered net store h entry [a] (if entered then [a] else []) m m' := by
    intro heq
    cases heq
    exact .none K [a]
  have hyes : ∀ {m₁ : Matching} (position : Int), Shelves m m₁ → m₁.memoriesOf = m.memoriesOf →
      Stocked net store m₁ → m₁.members = m.members →
      Test.allHold .blank entry.fact entry.moment alpha.tests = true →
      (true, m₁.enter a alpha.indexedFields h entry.fact position) = (entered, m') →
      Offered net store h entry [a] (if entered then [a] else []) m m' := by
    intro m₁ position hs hmem K₁ hmembers htests heq
    cases heq
    refine ⟨hs.trans (.setAlpha ..), hmem, K₁.enter ha he htype position, .refl [a],
      fun {b i} => ?_, fun b hb => ?_⟩
    · rw [if_pos rfl, Stocked.members_enter, hmembers, List.mem_singleton, eq_comm, eq_comm (a := h)]
    · obtain rfl := List.mem_singleton.1 hb
      exact ⟨alpha, ha, hadmits, htests⟩
  simp only [offer, ha] at hm'
  split at hm'
  · next htests =>
    split at hm'
    · split at hm'
      · exact hyes _ .refl rfl K rfl htests hm'
      · exact hno hm'
    · obtain ⟨K₁, hmembers⟩ := K.nextArrival a
      exact hyes _ (.setAlpha ..) rfl K₁ hmembers htests hm'
  · exact hno hm'

/-- A fact is tried on memories, one after the other. -/
theorem Matching.offerAll_spec {now : Moment} {tried : List AlphaId}
    (K : Stocked net store m) (he : store.entry? h = some entry)
    (htried : ∀ a ∈ tried, ∃ alpha, net.alpha? a = some alpha ∧ alpha.admits entry.fact = true)
    {entered : List AlphaId} {m' : Matching}
    (hm' : offerAll net now h entry m tried = (entered, m')) :
    Offered net store h entry tried entered m m' := by
  induction tried generalizing m entered with
  | nil =>
    cases hm'
    exact .none K []
  | cons a rest ih =>
    obtain ⟨alpha, ha, hadmits⟩ := htried a List.mem_cons_self
    rw [offerAll] at hm'
    rcases hfirst : m.offer net now h entry a with ⟨first, m₁⟩
    rcases hothers : offerAll net now h entry m₁ rest with ⟨others, m₂⟩
    simp only [hfirst, hothers, Prod.mk.injEq] at hm'
    obtain ⟨hentered, rfl⟩ := hm'
    have O₁ := offer_spec K he ha hadmits hfirst
    have O₂ := ih O₁.stocked (fun b hb => htried b (List.mem_cons_of_mem a hb)) hothers
    have hsplit : entered = (if first then [a] else []) ++ others := by
      rw [← hentered]
      cases first
      · rfl
      · rfl
    refine ⟨O₁.shelves.trans O₂.shelves, O₂.memoriesOf.trans O₁.memoriesOf, O₂.stocked,
      hsplit ▸ O₁.sublist.append O₂.sublist, fun {b i} => ?_, fun b hb => ?_⟩
    · rw [O₂.members, O₁.members, hsplit, List.mem_append, or_and_right, or_assoc, or_left_comm]
    · rw [hsplit, List.mem_append] at hb
      exact hb.elim (O₁.takes b) (O₂.takes b)

end

end RuleNet
