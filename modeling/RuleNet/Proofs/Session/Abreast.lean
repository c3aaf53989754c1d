/-
  Two sessions that are asked the same.

  Facts, time and deadlines do not depend on the rules, and what an alpha memory holds does not
  depend on other memories. So sessions of one rule base under different settings, and sessions of
  different rule bases over the same types, keep the same facts in memories that are alike.

  * `AlphaNode.Like`: two memories take the same facts.
  * `Session.Abreast`: two sessions have the same facts, time and deadlines, and their memories that
    are alike hold the same.
  * `Session.Together.change`: what all keep of what requests are made of, every change keeps.
  * `Session.Abreast.change`: so the sessions stay abreast.
-/
import RuleNet.Proofs.Matching.Shelf
import RuleNet.Proofs.Session.Reached

namespace RuleNet

/-! ## Memories that are alike -/

/-- Two memories take the same facts. -/
structure AlphaNode.Like (alpha beta : AlphaNode) : Prop where
  window : beta.window = alpha.window
  passes : ∀ fact moment, (beta.admits fact && Test.allHold .blank fact moment beta.tests) =
    (alpha.admits fact && Test.allHold .blank fact moment alpha.tests)

namespace AlphaNode.Like

variable {alpha beta : AlphaNode}

theorem refl (alpha : AlphaNode) : alpha.Like alpha := ⟨rfl, fun _ _ => rfl⟩

theorem takes (h : alpha.Like beta) (now : Moment) (entry : Entry) :
    beta.takes now entry = alpha.takes now entry := by
  rw [AlphaNode.takes, AlphaNode.takes, h.passes, h.window]

/-- They let facts in and go alike. -/
theorem receive (h : alpha.Like beta) (shelf : Shelf) (now : Moment) (i : Handle) (entry : Entry) :
    shelf.receive beta now i entry = shelf.receive alpha now i entry := by
  simp only [Shelf.receive, Shelf.surplus, Shelf.enter, h.takes, h.window]

theorem expire (h : alpha.Like beta) (shelf : Shelf) (now : Moment) :
    shelf.expire beta now = shelf.expire alpha now := by
  simp only [Shelf.expire, Shelf.outdated, h.window]

end AlphaNode.Like

namespace Session

variable {s s' t t' : Session}

/-! ## What the events leave alone -/

theorem store_applyEvents (s : Session) : s.applyEvents.store = s.store :=
  (aligned_applyEvents s).store

theorem clock_applyEvents (s : Session) : s.applyEvents.clock = s.clock :=
  (aligned_applyEvents s).clock

theorem expiry_applyEvents (s : Session) : s.applyEvents.expiry = s.expiry :=
  (aligned_applyEvents s).expiry

theorem shelf_applyEvents (s : Session) (a : AlphaId) :
    s.applyEvents.matching.shelf a = s.matching.shelf a :=
  Matching.shelf_congr (by rw [(aligned_applyEvents s).matching]) a

/-! ## Two sessions -/

/-- Two steady sessions have the same facts, time and deadlines, and their memories that are alike
    hold the same. -/
structure Abreast (s s' : Session) : Prop where
  steady : s.Steady
  steady' : s'.Steady
  wellFormed : s.network.WellFormed
  wellFormed' : s'.network.WellFormed
  types : s'.base.types = s.base.types
  store : s'.store = s.store
  clock : s'.clock = s.clock
  expiry : s'.expiry = s.expiry
  shelf : ∀ {a b alpha beta}, s.network.alpha? a = some alpha → s'.network.alpha? b = some beta →
    alpha.Like beta → s'.matching.shelf b = s.matching.shelf a

namespace Abreast

/-- Both sessions have gone on. -/
theorem onward (h : s.Abreast s') (ho : s.Onward t) (ho' : s'.Onward t')
    (hstore : t'.store = t.store) (hclock : t'.clock = t.clock) (hexpiry : t'.expiry = t.expiry)
    (hshelf : ∀ {a b alpha beta}, s.network.alpha? a = some alpha →
      s'.network.alpha? b = some beta → alpha.Like beta →
      t'.matching.shelf b = t.matching.shelf a) : t.Abreast t' where
  steady := ho.steady
  steady' := ho'.steady
  wellFormed := ho.network ▸ h.wellFormed
  wellFormed' := ho'.network ▸ h.wellFormed'
  types := by rw [ho'.base, ho.base, h.types]
  store := hstore
  clock := hclock
  expiry := hexpiry
  shelf ha hb := by
    rw [ho.network] at ha
    rw [ho'.network] at hb
    exact hshelf ha hb

/-- So sessions begin that have the same types, clock and identity of facts. -/
theorem start {base base' : RuleBase} (W : base.network.WellFormed) (W' : base'.network.WellFormed)
    (htypes : base'.types = base.types) {settings settings' : Settings}
    (hmode : settings'.identityMode = settings.identityMode)
    (hclock : settings'.clock = settings.clock)
    (hreading : settings'.clockStart = settings.clockStart) (reading : Moment) :
    (Session.start base settings reading).Abreast (Session.start base' settings' reading) := by
  obtain ⟨hsteady, hbase, -⟩ := steady_start W settings reading
  obtain ⟨hsteady', hbase', -⟩ := steady_start W' settings' reading
  refine ⟨hsteady, hsteady', by rw [network, hbase]; exact W, by rw [network, hbase']; exact W',
    by rw [hbase, hbase', htypes], ?_, ?_, ?_, fun {a b alpha beta} _ _ _ => ?_⟩
  · unfold Session.start
    rw [store_applyEvents, store_applyEvents, hmode]
  · unfold Session.start
    rw [clock_applyEvents, clock_applyEvents, Clock.start, Clock.start, hclock, hreading]
  · unfold Session.start
    rw [expiry_applyEvents, expiry_applyEvents]
  · unfold Session.start
    rw [shelf_applyEvents, shelf_applyEvents,
      Matching.shelf_congr (AlphasKept.start base'.network _).alphas,
      Matching.shelf_congr (AlphasKept.start base.network _).alphas, Matching.shelf, Matching.shelf,
      Matching.alpha, Matching.alpha, Matching.empty, Std.ExtTreeMap.getElem?_empty,
      Std.ExtTreeMap.getElem?_empty]

/-! ## Facts that go -/

theorem now (h : s.Abreast s') : s'.now = s.now := by rw [Session.now, Session.now, h.clock]

/-- A live fact goes from both. -/
theorem remove (h : s.Abreast s') {i : Handle} {entry : Entry}
    (he : s.store.entry? i = some entry) : (s.remove i).2.Abreast (s'.remove i).2 := by
  obtain ⟨store, hremove, -⟩ := WorkingMemory.remove?_live he
  have he' : s'.store.entry? i = some entry := by rw [h.store]; exact he
  have hremove' : s'.store.remove? i = .ok (entry, store) := by rw [h.store]; exact hremove
  have hfact := WorkingMemory.fact?_eq he
  refine h.onward (h.steady.remove h.wellFormed he) (h.steady'.remove h.wellFormed' he') ?_ ?_ ?_
    fun {a b alpha beta} ha hb hlike => ?_
  all_goals rw [remove_eq hremove, remove_eq hremove']
  · rw [store_applyEvents, store_applyEvents]
  · rw [clock_applyEvents, clock_applyEvents]
    exact h.clock
  · rw [expiry_applyEvents, expiry_applyEvents, h.expiry]
  · rw [shelf_applyEvents, shelf_applyEvents]
    show (s'.matching.retract s'.network s'.store i).shelf b = _
    rw [Matching.shelf_retract h.steady'.kept.housed (WorkingMemory.fact?_eq he') b,
      Matching.shelf_retract h.steady.kept.housed hfact a, h.shelf ha hb hlike]

/-- Events that are too old leave the windows of both. -/
theorem windows (h : s.Abreast s') (now : Moment) : Abreast
    (applyEvents { s with matching := s.matching.expireWindows s.network s.store now })
    (applyEvents { s' with matching := s'.matching.expireWindows s'.network s'.store now }) := by
  refine h.onward (h.steady.applyEvents h.wellFormed (h.steady.unapplied_windows h.wellFormed now))
    (h.steady'.applyEvents h.wellFormed' (h.steady'.unapplied_windows h.wellFormed' now)) ?_ ?_ ?_
    fun {a b alpha beta} ha hb hlike => ?_
  · rw [store_applyEvents, store_applyEvents]
    exact h.store
  · rw [clock_applyEvents, clock_applyEvents]
    exact h.clock
  · rw [expiry_applyEvents, expiry_applyEvents]
    exact h.expiry
  · rw [shelf_applyEvents, shelf_applyEvents]
    show (s'.matching.expireWindows s'.network s'.store now).shelf b = _
    rw [Matching.shelf_expireWindows h.steady'.kept.stocked now hb,
      Matching.shelf_expireWindows h.steady.kept.stocked now ha, hlike.expire, h.shelf ha hb hlike]

/-! ## Facts that come and change -/

theorem checkFact (h : s.Abreast s') (fact : Fact) : s'.checkFact fact = s.checkFact fact := by
  unfold Session.checkFact RuleBase.type?
  rw [h.types]

/-- A checked fact comes to both. -/
theorem receive (h : s.Abreast s') {type : FactType} {fact : Fact}
    (hc : s.checkFact fact = .ok type) :
    (s.receive type fact).2.Abreast (s'.receive type fact).2 := by
  obtain ⟨store, hstore⟩ : ∃ store, s.store.insert fact (type.moment fact s.now) = store := ⟨_, rfl⟩
  have hstore' : s'.store.insert fact (type.moment fact s'.now) = store := by
    rw [h.store, h.now]
    exact hstore
  have hentry : store.entry? s.store.nextHandle = some ⟨fact, type.moment fact s.now, 0⟩ := by
    rw [← hstore, WorkingMemory.entry?_insert, if_pos rfl]
  have hsame : ∀ {r : Session}, r.Steady → r.store = s.store → ∀ a, ∀ i ∈ r.matching.members a,
      store.entry? i = s.store.entry? i := fun {r} hr hrs a i hi => by
    obtain ⟨alpha, entry, -, he, -⟩ := hr.kept.stocked.typed hi
    rw [← hstore, WorkingMemory.entry?_insert, if_neg]
    exact Nat.ne_of_gt (hrs ▸ hr.fresh he)
  refine h.onward (h.steady.receive h.wellFormed hc)
    (h.steady'.receive h.wellFormed' ((h.checkFact fact).trans hc)) ?_ ?_ ?_
    fun {a b alpha beta} ha hb hlike => ?_
  all_goals rw [receive_eq s type fact hstore, receive_eq s' type fact hstore']
  · rw [store_applyEvents, store_applyEvents]
  · rw [clock_applyEvents, clock_applyEvents]
    exact h.clock
  · rw [expiry_applyEvents, expiry_applyEvents, h.expiry, h.store, h.now]
  · rw [shelf_applyEvents, shelf_applyEvents]
    show (s'.matching.assert s'.network store s'.store.nextHandle s'.now).shelf b =
      (s.matching.assert s.network store s.store.nextHandle s.now).shelf a
    rw [Matching.shelf_assert (h.steady.kept.stocked.restock (hsame h.steady rfl)) hentry s.now ha,
      h.store, h.now,
      Matching.shelf_assert (h.steady'.kept.stocked.restock fun a i hi =>
        (hsame h.steady' h.store a i hi).trans (by rw [h.store])) hentry s.now hb,
      hlike.receive, h.shelf ha hb hlike]

/-- What memories hold after a fact has got another value. -/
theorem shelf_exchanged (h : s.Steady) {i : Handle} {entry entry' : Entry} {store : WorkingMemory}
    (W : s.network.WellFormed) (he : s.store.entry? i = some entry)
    (hentry : ∀ j, store.entry? j = if i = j then some entry' else s.store.entry? j) {a : AlphaId}
    {alpha : AlphaNode} (ha : s.network.alpha? a = some alpha) :
    (s.exchanged store i).shelf a =
      ((s.matching.shelf a).take i).receive alpha s.now i entry' := by
  have hfact := WorkingMemory.fact?_eq he
  have hgone : ∀ {m : Matching}, Kept s.network s.store s.due m →
      m.shelf a = s.matching.shelf a →
      ((m.retract s.network s.store i).assert s.network store i s.now).shelf a =
        ((s.matching.shelf a).take i).receive alpha s.now i entry' := fun {m} k hm => by
    have R := k.retract W s.quiet_due hfact rfl
    have K : Stocked s.network store (m.retract s.network s.store i) :=
      R.kept.stocked.restock fun b j hj => by rw [hentry, if_neg (Ne.symm (R.members.1 hj).2)]
    rw [Matching.shelf_assert K ((hentry i).trans (if_pos rfl)) s.now ha,
      Matching.shelf_retract k.housed hfact a, hm]
  have hbegun : s.begun.shelf a = s.matching.shelf a := by
    unfold begun
    split <;> rfl
  unfold exchanged
  dsimp only
  split
  · exact (Matching.shelf_congr ((carries_alphasKept s.network).endUpdate store _).alphas a).trans
      (hgone h.begun.1 hbegun)
  · exact hgone h.begun.1 hbegun

/-- A live fact gets another value in both. -/
theorem exchange (h : s.Abreast s') {type : FactType} {i : Handle} {entry : Entry} {fact : Fact}
    (he : s.store.entry? i = some entry) (ht : entry.fact.type = fact.type)
    (hc : s.checkFact fact = .ok type) :
    (s.exchange type i fact entry.moment).2.Abreast (s'.exchange type i fact entry.moment).2 := by
  obtain ⟨store, hreplace, -, -, hentry⟩ :=
    WorkingMemory.replace?_live he ht (type.moment fact entry.moment)
  have he' : s'.store.entry? i = some entry := by rw [h.store]; exact he
  have hreplace' : s'.store.replace? i fact (type.moment fact entry.moment) = .ok (entry, store) := by
    rw [h.store]
    exact hreplace
  refine h.onward (h.steady.exchange h.wellFormed he ht hc)
    (h.steady'.exchange h.wellFormed' he' ht ((h.checkFact fact).trans hc)) ?_ ?_ ?_
    fun {a b alpha beta} ha hb hlike => ?_
  all_goals rw [exchange_eq type hreplace, exchange_eq type hreplace']
  · rw [store_applyEvents, store_applyEvents]
  · rw [clock_applyEvents, clock_applyEvents]
    exact h.clock
  · rw [expiry_applyEvents, expiry_applyEvents, h.expiry]
  · rw [shelf_applyEvents, shelf_applyEvents]
    show (s'.exchanged store i).shelf b = (s.exchanged store i).shelf a
    rw [shelf_exchanged h.steady h.wellFormed he hentry ha,
      shelf_exchanged h.steady' h.wellFormed' he' (h.store ▸ hentry) hb, hlike.receive, h.now,
      h.shelf ha hb hlike]

end Abreast

/-! ## Requests -/

/-- A relation of sessions abreast that all keep of what requests are made of. -/
structure Together (Q : Session → Session → Prop) : Prop where
  abreast : ∀ {s s'}, Q s s' → s.Abreast s'
  tick : ∀ {s s'}, Q s s' → ∀ clock, Q { s with clock } { s' with clock }
  plan : ∀ {s s'}, Q s s' → ∀ expiry, Q { s with expiry } { s' with expiry }
  remove : ∀ {s s'}, Q s s' → ∀ {i entry}, s.store.entry? i = some entry →
    Q (s.remove i).2 (s'.remove i).2
  windows : ∀ {s s'}, Q s s' → ∀ now,
    Q (applyEvents { s with matching := s.matching.expireWindows s.network s.store now })
      (applyEvents { s' with matching := s'.matching.expireWindows s'.network s'.store now })
  receive : ∀ {s s'}, Q s s' → ∀ {type fact}, s.checkFact fact = .ok type →
    Q (s.receive type fact).2 (s'.receive type fact).2
  exchange : ∀ {s s'}, Q s s' → ∀ {type i entry fact}, s.store.entry? i = some entry →
    entry.fact.type = fact.type → s.checkFact fact = .ok type →
    Q (s.exchange type i fact entry.moment).2 (s'.exchange type i fact entry.moment).2

namespace Together

variable {Q : Session → Session → Prop} (T : Together Q)
include T

theorem expire (h : Q s s') (i : Handle) : Q (s.expire i) (s'.expire i) := by
  unfold Session.expire
  rw [(T.abreast h).store]
  split
  · next hlive =>
    obtain ⟨entry, he⟩ := WorkingMemory.contains_iff.1 hlive
    exact T.remove h he
  · exact h

theorem expireEach (h : Q s s') (due : List Handle) :
    Q (due.foldl Session.expire s) (due.foldl Session.expire s') := by
  induction due generalizing s s' with
  | nil => exact h
  | cons i rest ih => exact ih (T.expire h i)

/-- What is overdue goes from both. -/
theorem synchronize (h : Q s s') : Q s.synchronize s'.synchronize := by
  have A := T.abreast h
  unfold Session.synchronize
  rw [A.now, A.expiry]
  exact T.windows (T.expireEach (T.plan h (s.expiry.takeDue s.now)) _) s.now

theorem insert (h : Q s s') (fact : Fact) : Q (s.insert fact).2 (s'.insert fact).2 := by
  have hs := T.synchronize h
  have A := T.abreast hs
  unfold Session.insert
  dsimp only
  rw [A.checkFact, A.store]
  split
  · exact hs
  · next type hc =>
    split
    · exact hs
    · exact T.receive hs hc

theorem update (h : Q s s') (i : Handle) (fact : Fact) :
    Q (s.update i fact).2 (s'.update i fact).2 := by
  have hs := T.synchronize h
  have A := T.abreast hs
  unfold Session.update
  dsimp only
  rw [A.store]
  split
  · exact hs
  · next entry he =>
    split
    · exact hs
    · next ht =>
      rw [A.checkFact]
      split
      · exact hs
      · next type hc => exact T.exchange hs he (Decidable.of_not_not ht) hc

theorem retract (h : Q s s') (i : Handle) : Q (s.retract i).2 (s'.retract i).2 := by
  have hs := T.synchronize h
  unfold Session.retract
  dsimp only
  rw [(T.abreast hs).store]
  split
  · next hlive =>
    obtain ⟨entry, he⟩ := WorkingMemory.contains_iff.1 hlive
    exact T.remove hs he
  · exact hs

theorem advance (h : Q s s') (span : Span) : Q (s.advance span).2 (s'.advance span).2 := by
  unfold Session.advance
  rw [(T.abreast h).clock]
  split
  · exact h
  · next clock _ => exact T.synchronize (T.tick h clock)

/-- Every change keeps the relation. -/
theorem change (h : Q s s') (c : Change) : Q (s.change c) (s'.change c) := by
  cases c with
  | insert fact => exact T.insert h fact
  | update i fact => exact T.update h i fact
  | modify i change =>
    unfold Session.change Session.modify
    dsimp only
    rw [(T.abreast h).store]
    split
    · exact h
    · exact T.update h i _
  | retract i => exact T.retract h i
  | advance span => exact T.advance h span

/-- So does a reading of the real time. -/
theorem read (h : Q s s') (reading : Moment) : Q (s.read reading) (s'.read reading) := by
  unfold Session.read
  rw [(T.abreast h).clock]
  exact T.tick h _

/-- So does a whole run of changes at the same readings. -/
theorem changesAt (h : Q s s') (changes : List (Moment × Change)) :
    Q (changes.foldl changeAt s) (changes.foldl changeAt s') := by
  induction changes generalizing s s' with
  | nil => exact h
  | cons c rest ih => exact ih (T.change (T.read h c.1) c.2)

end Together

namespace Abreast

theorem together : Together Abreast where
  abreast h := h
  tick h _ := h.onward (h.steady.same rfl rfl rfl rfl rfl) (h.steady'.same rfl rfl rfl rfl rfl)
    h.store rfl h.expiry h.shelf
  plan h _ := h.onward (h.steady.same rfl rfl rfl rfl rfl) (h.steady'.same rfl rfl rfl rfl rfl)
    h.store h.clock rfl h.shelf
  remove := remove
  windows := windows
  receive := receive
  exchange := exchange

/-- What is overdue goes from both. -/
theorem synchronize (h : s.Abreast s') : s.synchronize.Abreast s'.synchronize :=
  together.synchronize h

/-- Every change leaves the sessions abreast. -/
theorem change (h : s.Abreast s') (c : Change) : (s.change c).Abreast (s'.change c) :=
  together.change h c

end Abreast

end Session

end RuleNet
