/-
  Two sessions of rule bases that have branches in common.

  They are asked the same under the same settings. Whatever else the rule bases hold, the tokens of
  nodes that do the same stay related through all that requests are made of.

  * `Matching.Mirrored`: two matchings of the same facts, at rest or within an update, have related
    tokens; it is kept when a fact leaves or enters and when an update begins or ends.
  * `Session.Mirrored`: two sessions abreast have related tokens.
  * `Session.Mirrored.together`: so they have after every change.
-/
import RuleNet.Proofs.Matching.Mirror
import RuleNet.Proofs.Session.Abreast
import RuleNet.Proofs.Session.Evaluation

namespace RuleNet

/-- Memories of two networks take the same facts. -/
def Network.LikeAt (net net' : Network) (a b : AlphaId) : Prop :=
  ∃ alpha beta, net.alpha? a = some alpha ∧ net'.alpha? b = some beta ∧ alpha.Like beta

/-- What a matching of a network has to rest on for its steps to treat left tokens in a manner. -/
structure Network.Grounds (net : Network) (store : WorkingMemory) (x : Ledger) : Prop where
  wellFormed : net.WellFormed
  quiet : x.Quiet
  still : x.Still
  twice : ∀ n left h, net.Exposed n → x.twice n left h
  sums : ∀ {m : Matching}, Stocked net store m → net.SumsIntegers store m.members

namespace Matching

/-- Two matchings of the same facts have related tokens. -/
structure Mirrored (net net' : Network) (store : WorkingMemory) (x x' : Ledger) (m m' : Matching) :
    Prop where
  kept : Kept net store x m
  kept' : Kept net' store x' m'
  shelf : ∀ {a b alpha beta}, net.alpha? a = some alpha → net'.alpha? b = some beta →
    alpha.Like beta → m'.shelf b = m.shelf a
  deferring : m'.deferred.isSome = m.deferred.isSome
  mirrors : ∃ R, Mirrors net net' (net.LikeAt net') store R m m'

namespace Mirrored

variable {net net' : Network} {store store' : WorkingMemory} {x x' : Ledger}
  {m₀ m₀' m m' : Matching} {h : Handle}

theorem holdAlike (M : Mirrored net net' store x x' m m') :
    HoldAlike (net.LikeAt net') m.members m'.members := fun _ _ ⟨_, _, ha, hb, hlike⟩ =>
  congrArg Shelf.facts (M.shelf ha hb hlike)

/-- Facts have left or entered memories. -/
theorem turn (M : Mirrored net net' store x x' m₀ m₀') (k : Kept net store x m)
    (k' : Kept net' store x' m') (hshelf : ∀ {a b alpha beta}, net.alpha? a = some alpha →
      net'.alpha? b = some beta → alpha.Like beta → m'.shelf b = m.shelf a)
    (hd : m.deferred.isSome = m₀.deferred.isSome) (hd' : m'.deferred.isSome = m₀'.deferred.isSome)
    (T : Treats net store (.turn store m₀.members m.members m₀.deferred.isSome) m₀ m)
    (T' : Treats net' store (.turn store m₀'.members m'.members m₀'.deferred.isSome) m₀' m') :
    Mirrored net net' store x x' m m' := by
  obtain ⟨R, hR⟩ := M.mirrors
  have hsame : HoldAlike (net.LikeAt net') m.members m'.members := fun _ _ ⟨_, _, ha, hb, hlike⟩ =>
    congrArg Shelf.facts (hshelf ha hb hlike)
  rw [M.deferring] at T'
  exact ⟨k, k', hshelf, hd'.trans (M.deferring.trans hd.symm),
    _, hR.step T T' (Manner.alike_turn M.holdAlike hsame _)⟩

section
variable (G : net.Grounds store x) (G' : net'.Grounds store x')
include G G'

/-- A fact leaves both. -/
theorem retract (M : Mirrored net net' store x x' m m') {fact : Fact}
    (hf : store.fact? h = some fact) :
    Mirrored net net' store x x' (m.retract net store h) (m'.retract net' store h) := by
  have D := M.kept.retract G.wellFormed G.quiet hf rfl
  have D' := M.kept'.retract G'.wellFormed G'.quiet hf rfl
  refine M.turn D.kept D'.kept (fun {a b _ _} ha hb hlike => ?_) D.deferring D'.deferring
    (M.kept.treats_retract G.wellFormed G.quiet G.still hf rfl (G.sums D.kept.stocked))
    (M.kept'.treats_retract G'.wellFormed G'.quiet G'.still hf rfl (G'.sums D'.kept.stocked))
  rw [shelf_retract M.kept'.housed hf, shelf_retract M.kept.housed hf, M.shelf ha hb hlike]

/-- Events that are too old leave the windows of both. -/
theorem expireWindows (M : Mirrored net net' store x x' m m') (now : Moment) :
    Mirrored net net' store x x' (m.expireWindows net store now)
      (m'.expireWindows net' store now) := by
  obtain ⟨k, hd, -⟩ := M.kept.expireWindows G.wellFormed G.quiet G.still.told now rfl
  obtain ⟨k', hd', -⟩ := M.kept'.expireWindows G'.wellFormed G'.quiet G'.still.told now rfl
  refine M.turn k k' (fun {a b _ _} ha hb hlike => ?_) hd hd'
    (M.kept.treats_expireWindows G.wellFormed G.quiet G.still now rfl (G.sums k.stocked))
    (M.kept'.treats_expireWindows G'.wellFormed G'.quiet G'.still now rfl (G'.sums k'.stocked))
  rw [shelf_expireWindows M.kept'.stocked now hb, shelf_expireWindows M.kept.stocked now ha,
    hlike.expire, M.shelf ha hb hlike]

/-- A fact enters both that is in no memory of them. -/
theorem assert (M : Mirrored net net' store x x' m m') {entry : Entry}
    (he : store.entry? h = some entry) (habsent : ∀ a, h ∉ m.members a)
    (habsent' : ∀ a, h ∉ m'.members a) (now : Moment) :
    Mirrored net net' store x x' (m.assert net store h now) (m'.assert net' store h now) := by
  obtain ⟨k, hd, -⟩ := M.kept.assert G.wellFormed G.quiet G.still.told he habsent
    (fun n left => G.twice n left h) rfl
  obtain ⟨k', hd', -⟩ := M.kept'.assert G'.wellFormed G'.quiet G'.still.told he habsent'
    (fun n left => G'.twice n left h) rfl
  refine M.turn k k' (fun {a b _ _} ha hb hlike => ?_) hd hd'
    (M.kept.treats_assert G.wellFormed G.quiet G.still he habsent (fun n left => G.twice n left h) rfl
      (G.sums k.stocked))
    (M.kept'.treats_assert G'.wellFormed G'.quiet G'.still he habsent'
      (fun n left => G'.twice n left h) rfl (G'.sums k'.stocked))
  rw [shelf_assert M.kept'.stocked he now hb, shelf_assert M.kept.stocked he now ha, hlike.receive,
    M.shelf ha hb hlike]

end

/-- Facts that are in no memory come and go. -/
theorem restock (M : Mirrored net net' store x x' m m') (G : net.Grounds store x)
    (G' : net'.Grounds store x') (hsame : ∀ a, ∀ i ∈ m.members a, store'.entry? i = store.entry? i)
    (hsame' : ∀ a, ∀ i ∈ m'.members a, store'.entry? i = store.entry? i) :
    Mirrored net net' store' x x' m m' := by
  have hover : ∀ {net : Network} {x : Ledger} {m : Matching} {n : NodeId} {left : TokenId}
      {p : Option NodeId}, Kept net store x m → net.Grounds store x →
      (∀ a, ∀ i ∈ m.members a, store'.entry? i = store.entry? i) → m.LiveAt left p →
      (m.Overdue net store' n left ↔ m.Overdue net store n left) :=
    fun {net x m n left p} k G hsame hl => by
      obtain ⟨o, ho, -⟩ := hl
      have hview : (m.matchOf left).view store' = (m.matchOf left).view store :=
        Match.view_congr fun i hi => by
          obtain ⟨a, ha⟩ := k.sound.mem_handles G.quiet.idle G.still.told ho i hi
          exact hsame a i ha
      simp only [Overdue, OnTime, Match.gated?, hview]
  obtain ⟨R, hR⟩ := M.mirrors
  refine ⟨M.kept.restock G.quiet.idle G.still.told hsame,
    M.kept'.restock G'.quiet.idle G'.still.told hsame', M.shelf, M.deferring, R, ?_⟩
  refine { hR with overdue := fun {n n' left left'} hfacing hrelated => ?_ }
  have hbefore := hR.overdue hfacing hrelated
  obtain ⟨node, node', -, -, -, hl, hl'⟩ := hfacing
  rw [hover M.kept G hsame hl, hover M.kept' G' hsame' hl', hbefore]

/-- A fact leaves both and then changes. -/
theorem discard (M : Mirrored net net' store x x' m m') (G : net.Grounds store x)
    (G' : net'.Grounds store x') {fact : Fact} (hf : store.fact? h = some fact)
    (hothers : ∀ i, i ≠ h → store'.entry? i = store.entry? i) :
    Mirrored net net' store' x x' (m.retract net store h) (m'.retract net' store h) ∧
      (∀ a, h ∉ (m.retract net store h).members a) ∧
      ∀ a, h ∉ (m'.retract net' store h).members a := by
  have D := M.kept.retract G.wellFormed G.quiet hf rfl
  have D' := M.kept'.retract G'.wellFormed G'.quiet hf rfl
  exact ⟨(M.retract G G' hf).restock G G' (fun a i hi => hothers i (D.members.1 hi).2)
    (fun a i hi => hothers i (D'.members.1 hi).2), fun a hi => (D.members.1 hi).2 rfl,
    fun a hi => (D'.members.1 hi).2 rfl⟩

/-- An update begins. -/
theorem beginUpdate (M : Mirrored net net' store x x' m m') :
    Mirrored net net' store x x' m.beginUpdate m'.beginUpdate := by
  have hover : ∀ {net : Network} (m : Matching) (n : NodeId) (left : TokenId),
      m.beginUpdate.Overdue net store n left ↔ m.Overdue net store n left := fun {net} m n left => by
    have hmatch : m.beginUpdate.matchOf = m.matchOf := matchOf_congr rfl
    rw [Overdue, Overdue, OnTime, OnTime, about_beginUpdate, hmatch]
    rfl
  obtain ⟨R, hR⟩ := M.mirrors
  refine ⟨M.kept.beginUpdate, M.kept'.beginUpdate, M.shelf, rfl, R, ?_⟩
  have hmatch : ∀ m : Matching, m.beginUpdate.matchOf = m.matchOf := fun m => matchOf_congr rfl
  exact ⟨hR.forest.congr rfl rfl, hR.forest'.congr rfl rfl, hR.root, fun h hl hl' => by
    rw [hmatch, hmatch]
    exact hR.matched h hl hl', hR.made, hR.made', fun hfacing h => by
    rw [hover, hover]
    exact hR.overdue hfacing h⟩

/-- An update ends. -/
theorem endUpdate (M : Mirrored net net' store x x' m m') (G : net.Grounds store x)
    (G' : net'.Grounds store x') (hstale : ∀ n left, ¬ x.stale n left)
    (hstale' : ∀ n left, ¬ x'.stale n left)
    (hclose : ∀ a b : Option Value, (a == b) = true → x.agree a b)
    (hclose' : ∀ a b : Option Value, (a == b) = true → x'.agree a b) :
    Mirrored net net' store x x' (m.endUpdate net store) (m'.endUpdate net' store) := by
  cases hdirty : m.deferred with
  | none =>
    have hdirty' : m'.deferred = none := undeferred M.deferring hdirty
    simp only [Matching.endUpdate, hdirty, hdirty']
    exact M
  | some dirty =>
    obtain ⟨dirty', hdirty'⟩ := Option.isSome_iff_exists.1 (M.deferring.trans (hdirty ▸ rfl))
    obtain ⟨k, hdirect, -⟩ := M.kept.endUpdate G.wellFormed G.quiet hstale hclose rfl
    obtain ⟨k', hdirect', -⟩ := M.kept'.endUpdate G'.wellFormed G'.quiet hstale' hclose' rfl
    have hshelf : ∀ {a b alpha beta}, net.alpha? a = some alpha → net'.alpha? b = some beta →
        alpha.Like beta → (m'.endUpdate net' store).shelf b = (m.endUpdate net store).shelf a :=
      fun {a b _ _} ha hb hlike =>
        (shelf_congr ((carries_alphasKept net').endUpdate store _).alphas b).trans
          ((M.shelf ha hb hlike).trans
            (shelf_congr ((carries_alphasKept net).endUpdate store _).alphas a).symm)
    obtain ⟨R, hR⟩ := M.mirrors
    refine ⟨k, k', hshelf, by rw [hdirect, hdirect'], _, hR.step
      (M.kept.treats_endUpdate G.wellFormed G.quiet G.still hclose hdirty rfl (G.sums k.stocked))
      (M.kept'.treats_endUpdate G'.wellFormed G'.quiet G'.still hclose' hdirty' rfl
        (G'.sums k'.stocked)) (Manner.alike_review fun a b hab => ?_)⟩
    obtain ⟨_, _, ha, hb, hlike⟩ := hab
    exact congrArg Shelf.facts (hshelf ha hb hlike)

end Mirrored

end Matching

namespace Session

variable {s s' t t' : Session}

/-- Two sessions abreast with the same update policy have related tokens. -/
structure Mirrored (s s' : Session) : Prop extends s.Abreast s' where
  policy : s'.settings.updatePolicy = s.settings.updatePolicy
  folds : s.network.Folds fun type fold => fold.OfIntegers s.base.types type
  folds' : s'.network.Folds fun type fold => fold.OfIntegers s'.base.types type
  mirrors : ∃ R, Mirrors s.network s'.network (s.network.LikeAt s'.network) s.store R s.matching
    s'.matching

/-- A session has all that its matches have to rest on, with any facts that fit their types. -/
theorem grounds (s : Session) (W : s.network.WellFormed)
    (hfolds : s.network.Folds fun type fold => fold.OfIntegers s.base.types type)
    {store : WorkingMemory} (hc : s.base.Conforms store) : s.network.Grounds store s.due where
  wellFormed := W
  quiet := s.quiet_due
  still := Ledger.still_rest
  twice _ _ _ := id
  sums K _ _ hk := RuleBase.Conforms.sumsIntegers hc K hfolds hk

namespace Mirrored

/-- Both sessions have gone on, and their events have been taken. -/
theorem applied (h : s.Mirrored s') (A : t.applyEvents.Abreast t'.applyEvents)
    (hb : t.base = s.base) (hb' : t'.base = s'.base) (hset : t.settings = s.settings)
    (hset' : t'.settings = s'.settings)
    (hm : ∃ R, Mirrors s.network s'.network (s.network.LikeAt s'.network) t.store R t.matching
      t'.matching) : t.applyEvents.Mirrored t'.applyEvents := by
  have L := aligned_applyEvents t
  have L' := aligned_applyEvents t'
  have hbase : t.applyEvents.base = s.base := L.base.trans hb
  have hbase' : t'.applyEvents.base = s'.base := L'.base.trans hb'
  refine ⟨A, ?_, ?_, ?_, ?_⟩
  · rw [L.settings, L'.settings, hset, hset', h.policy]
  · rw [network, hbase]
    exact h.folds
  · rw [network, hbase']
    exact h.folds'
  · obtain ⟨R, hR⟩ := hm
    refine ⟨R, ?_⟩
    rw [network, network, hbase, hbase', L.store, L.matching, L'.matching]
    exact hR.takeEvents

/-- The matchings of both have related tokens. -/
theorem matching (h : s.Mirrored s') : Matching.Mirrored s.network s'.network s.store s.due s'.due
    s.matching s'.matching where
  kept := h.steady.kept
  kept' := h.store ▸ h.steady'.kept
  shelf := h.shelf
  deferring := by rw [h.steady.direct, h.steady'.direct]
  mirrors := h.mirrors

theorem tick (h : s.Mirrored s') (clock : Clock) : Mirrored { s with clock } { s' with clock } :=
  ⟨Abreast.together.tick h.toAbreast clock, h.policy, h.folds, h.folds', h.mirrors⟩

theorem plan (h : s.Mirrored s') (expiry : ExpirySchedule) :
    Mirrored { s with expiry } { s' with expiry } :=
  ⟨Abreast.together.plan h.toAbreast expiry, h.policy, h.folds, h.folds', h.mirrors⟩

/-- The facts of both fit the types of either. -/
theorem grounds (h : s.Mirrored s') {store : WorkingMemory} (hc : s.base.Conforms store)
    (hc' : s'.base.Conforms store) :
    s.network.Grounds store s.due ∧ s'.network.Grounds store s'.due :=
  ⟨s.grounds h.wellFormed h.folds hc, s'.grounds h.wellFormed' h.folds' hc'⟩

/-! ## What requests are made of -/

/-- A live fact goes from both. -/
theorem remove (h : s.Mirrored s') {i : Handle} {entry : Entry}
    (he : s.store.entry? i = some entry) : (s.remove i).2.Mirrored (s'.remove i).2 := by
  obtain ⟨store, hremove, -, -, hentry⟩ := WorkingMemory.remove?_live he
  have hremove' : s'.store.remove? i = .ok (entry, store) := by rw [h.store]; exact hremove
  have A := h.toAbreast.remove he
  obtain ⟨G, G'⟩ := h.grounds h.steady.conforms (h.store ▸ h.steady'.conforms)
  obtain ⟨M, -⟩ := h.matching.discard G G' (WorkingMemory.fact?_eq he) fun j hj =>
    (hentry j).trans (if_neg (Ne.symm hj))
  rw [remove_eq hremove, remove_eq hremove'] at A ⊢
  refine h.applied A rfl rfl rfl rfl ?_
  simp only [h.store]
  exact M.mirrors

/-- Events that are too old leave the windows of both. -/
theorem windows (h : s.Mirrored s') (now : Moment) : Mirrored
    (applyEvents { s with matching := s.matching.expireWindows s.network s.store now })
    (applyEvents { s' with matching := s'.matching.expireWindows s'.network s'.store now }) := by
  obtain ⟨G, G'⟩ := h.grounds h.steady.conforms (h.store ▸ h.steady'.conforms)
  refine h.applied (h.toAbreast.windows now) rfl rfl rfl rfl ?_
  simp only [h.store]
  exact (h.matching.expireWindows G G' now).mirrors

/-- A checked fact comes to both. -/
theorem receive (h : s.Mirrored s') {type : FactType} {fact : Fact}
    (hc : s.checkFact fact = .ok type) :
    (s.receive type fact).2.Mirrored (s'.receive type fact).2 := by
  obtain ⟨store, hstore⟩ : ∃ store, s.store.insert fact (type.moment fact s.now) = store := ⟨_, rfl⟩
  have hstore' : s'.store.insert fact (type.moment fact s'.now) = store := by
    rw [h.store, h.now]
    exact hstore
  have hentry : ∀ i, store.entry? i = if s.store.nextHandle = i then
      some ⟨fact, type.moment fact s.now, 0⟩ else s.store.entry? i := fun i =>
    hstore ▸ s.store.entry?_insert fact _ i
  -- the handle is new, so no memory has it
  have hnew : ∀ {r : Session}, r.Steady → r.store = s.store →
      (∀ a, ∀ i ∈ r.matching.members a, store.entry? i = s.store.entry? i) ∧
      ∀ a, s.store.nextHandle ∉ r.matching.members a := fun {r} hr hrs => by
    have hlive : ∀ a, ∀ i ∈ r.matching.members a, i < s.store.nextHandle := fun a i hi => by
      obtain ⟨alpha, entry, -, he, -⟩ := hr.kept.stocked.typed hi
      exact hrs ▸ hr.fresh he
    exact ⟨fun a i hi => (hentry i).trans (if_neg (Nat.ne_of_gt (hlive a i hi))),
      fun a hi => Nat.lt_irrefl _ (hlive a _ hi)⟩
  obtain ⟨hsame, habsent⟩ := hnew h.steady rfl
  obtain ⟨hsame', habsent'⟩ := hnew h.steady' h.store
  have A := h.toAbreast.receive hc
  have hconforms : s.base.Conforms store :=
    (h.steady.unapplied_receive h.wellFormed hc hstore).conforms
  have hconforms' : s'.base.Conforms store :=
    (h.steady'.unapplied_receive h.wellFormed' ((h.checkFact fact).trans hc)
    hstore').conforms
  obtain ⟨G, G'⟩ := h.grounds h.steady.conforms (h.store ▸ h.steady'.conforms)
  obtain ⟨G₁, G₁'⟩ := h.grounds hconforms hconforms'
  have M := (h.matching.restock G G' hsame hsame').assert G₁ G₁' ((hentry _).trans (if_pos rfl))
    habsent habsent' s.now
  rw [receive_eq s type fact hstore, receive_eq s' type fact hstore'] at A ⊢
  refine h.applied A rfl rfl rfl rfl ?_
  simp only [h.store, h.now]
  exact M.mirrors

/-- The matchings of both have related tokens after a live fact has got another value. -/
theorem exchanged (h : s.Mirrored s') {i : Handle} {entry entry' : Entry} {store : WorkingMemory}
    (he : s.store.entry? i = some entry)
    (hentry : ∀ j, store.entry? j = if i = j then some entry' else s.store.entry? j)
    (hc : s.base.Conforms store) (hc' : s'.base.Conforms store) :
    ∃ R, Mirrors s.network s'.network (s.network.LikeAt s'.network) store R (s.exchanged store i)
      (s'.exchanged store i) := by
  obtain ⟨G, G'⟩ := h.grounds h.steady.conforms (h.store ▸ h.steady'.conforms)
  obtain ⟨G₁, G₁'⟩ := h.grounds hc hc'
  have hreplaced : ∀ {m m' : Matching},
      Matching.Mirrored s.network s'.network s.store s.due s'.due m m' →
      Matching.Mirrored s.network s'.network store s.due s'.due
        ((m.retract s.network s.store i).assert s.network store i s.now)
        ((m'.retract s'.network s.store i).assert s'.network store i s.now) := fun M => by
    obtain ⟨M₁, habsent, habsent'⟩ := M.discard G G' (WorkingMemory.fact?_eq he) fun j hj =>
      (hentry j).trans (if_neg (Ne.symm hj))
    exact M₁.assert G₁ G₁' ((hentry i).trans (if_pos rfl)) habsent habsent' s.now
  unfold Session.exchanged Session.begun
  rw [h.policy, h.store, h.now]
  cases hpolicy : s.settings.updatePolicy with
  | stepwise => exact (hreplaced h.matching).mirrors
  | coalesce =>
    have hclose : ∀ {r : Session}, r.settings.updatePolicy = .coalesce →
        ∀ a b : Option Value, (a == b) = true → r.due.agree a b := fun {r} hr a b hab => by
      show r.settings.updatePolicy.agree a b
      rw [hr]
      exact Or.inr hab
    have M := hreplaced h.matching.beginUpdate
    exact (M.endUpdate G₁ G₁' (fun _ _ => id) (fun _ _ => id) (hclose hpolicy)
      (hclose (h.policy.trans hpolicy))).mirrors

/-- A live fact gets another value in both. -/
theorem exchange (h : s.Mirrored s') {type : FactType} {i : Handle} {entry : Entry} {fact : Fact}
    (he : s.store.entry? i = some entry) (ht : entry.fact.type = fact.type)
    (hc : s.checkFact fact = .ok type) : (s.exchange type i fact entry.moment).2.Mirrored
      (s'.exchange type i fact entry.moment).2 := by
  obtain ⟨store, hreplace, -, -, hentry⟩ :=
    WorkingMemory.replace?_live he ht (type.moment fact entry.moment)
  have hreplace' : s'.store.replace? i fact (type.moment fact entry.moment) = .ok (entry, store) := by
    rw [h.store]
    exact hreplace
  have hconforms : ∀ {r : Session}, r.Steady → r.network.WellFormed → r.store = s.store →
      r.checkFact fact = .ok type → r.base.Conforms store := fun {r} hr W hrs hrc => by
    have hre : r.store.entry? i = some entry := by rw [hrs]; exact he
    have hrr : r.store.replace? i fact (type.moment fact entry.moment) = .ok (entry, store) := by
      rw [hrs]; exact hreplace
    have U := @Steady.unapplied_exchange r hr W type i entry fact hre ht hrc store r.expiry _ hrr
    exact fun {_ _} hj => U.conforms hj
  have A := h.toAbreast.exchange he ht hc
  have hm := h.exchanged he hentry (hconforms h.steady h.wellFormed rfl hc)
    (hconforms h.steady' h.wellFormed' h.store ((h.checkFact fact).trans hc))
  rw [exchange_eq type hreplace, exchange_eq type hreplace'] at A ⊢
  exact h.applied A rfl rfl rfl rfl hm

/-- Sessions have related tokens after every change. -/
theorem together : Together Mirrored where
  abreast := toAbreast
  tick := tick
  plan := plan
  remove := remove
  windows := windows
  receive := receive
  exchange := exchange

/-- Sessions that begin under the same settings have related tokens. -/
theorem start {base base' : RuleBase} (W : base.network.WellFormed) (W' : base'.network.WellFormed)
    (htypes : base'.types = base.types)
    (hfolds : base.network.Folds fun type fold => fold.OfIntegers base.types type)
    (hfolds' : base'.network.Folds fun type fold => fold.OfIntegers base'.types type)
    (settings : Settings) (reading : Moment) :
    (Session.start base settings reading).Mirrored (Session.start base' settings reading) := by
  have A := Abreast.start W W' htypes (rfl : settings.identityMode = _) (rfl : settings.clock = _)
    (rfl : settings.clockStart = _) reading
  obtain ⟨-, hbase, hset⟩ := steady_start W settings reading
  obtain ⟨-, hbase', hset'⟩ := steady_start W' settings reading
  obtain ⟨store, hstore⟩ : ∃ store, WorkingMemory.empty settings.identityMode = store := ⟨_, rfl⟩
  -- both begin with all that holds without facts, and with no more
  have hside : ∀ {base : RuleBase}, base.network.WellFormed →
      base.network.Folds (fun type fold => fold.OfIntegers base.types type) → ∃ m : Matching,
        (Session.start base settings reading).store = store ∧
        (Session.start base settings reading).matching = { m with events := #[] } ∧
        Sound base.network store (.rest base.network (fun _ _ => False) Eq) m ∧
        m.deferred.isSome = false ∧ base.network.SumsIntegers store m.members :=
    fun {base} W hfolds => by
      obtain ⟨k, hd⟩ := @Kept.start base.network store W Eq fun _ => rfl
      refine ⟨Matching.start base.network store, ?_, ?_, k.sound, by rw [hd]; rfl, fun {n kind} hk =>
        RuleBase.Conforms.sumsIntegers (fun {i entry} he => ?_) k.stocked hfolds hk⟩
      · unfold Session.start
        rw [store_applyEvents, hstore]
      · unfold Session.start
        rw [(aligned_applyEvents _).matching, hstore]
      · rw [← hstore] at he
        cases (Std.ExtTreeMap.getElem?_empty : WorkingMemory.entry? (.empty _) i = none).symm.trans he
  obtain ⟨m, hs, hm, S, hd, hsums⟩ := hside W hfolds
  obtain ⟨m', -, hm', S', hd', hsums'⟩ := hside W' hfolds'
  refine ⟨A, by rw [hset, hset'], by rw [network, hbase]; exact hfolds,
    by rw [network, hbase']; exact hfolds', ?_⟩
  have hsame : HoldAlike (base.network.LikeAt base'.network) m.members m'.members := by
    rintro a b ⟨alpha, beta, ha, hb, hlike⟩
    have hshelf := A.shelf (by rw [network, hbase]; exact ha) (by rw [network, hbase']; exact hb) hlike
    rw [hm, hm'] at hshelf
    exact congrArg Shelf.facts hshelf
  rw [network, network, hbase, hbase', hs, hm, hm']
  exact ⟨_, (Mirrors.of_exact S S' Ledger.still_rest Ledger.still_rest
    (fun _ _ => id) (fun _ _ => id) id id hd hd' hsums hsums' hsame).takeEvents⟩

end Mirrored

end Session

end RuleNet
