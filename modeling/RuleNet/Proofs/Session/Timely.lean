/-
  Time windows are up to date.

  A time window keeps its members by their moments. What is too old when the clock has been moved is
  at the front, and is let go before a request returns.

  * `Shelf.Files`: members are kept by their moments, and these meet a condition.
  * `Shelf.Files.expire`: what is left when a window has let go is covered by it.
  * `Session.Timely`: the time windows of a session cover all their members.
  * `Session.Reached.timely`: so it is in every session with a manual clock.
-/
import RuleNet.Proofs.Session.Abreast

namespace RuleNet

/-! ## Windows -/

theorem mem_takeWhile_of_pairwise {α : Type} {p : α → Bool} {items : List α}
    (hmono : items.Pairwise fun a b => p b = true → p a = true) {b : α} (hb : b ∈ items)
    (hp : p b = true) : b ∈ items.takeWhile p := by
  induction items with
  | nil => cases hb
  | cons a rest ih =>
    obtain ⟨hall, hrest⟩ := List.pairwise_cons.1 hmono
    rcases List.mem_cons.1 hb with rfl | hmem
    · rw [List.takeWhile_cons_of_pos hp]
      exact List.mem_cons_self
    · rw [List.takeWhile_cons_of_pos (hall b hmem hp)]
      exact List.mem_cons_of_mem a (ih hrest hmem)

/-- What a window covers it covers later on as well. -/
theorem Span.covers_mono {length : Span} {moment later now : Moment} (hle : moment ≤ later)
    (h : length.covers moment now = true) : length.covers later now = true := by
  rw [covers, decide_eq_true_eq] at h ⊢
  exact Int.le_trans h hle

namespace Shelf

variable {shelf : Shelf} {store store' : WorkingMemory} {P Q : Moment → Prop} {alpha : AlphaNode}
  {length : Span}

/-- The members of a window are kept by their moments, which meet a condition. -/
def Files (shelf : Shelf) (store : WorkingMemory) (P : Moment → Prop) : Prop :=
  ∀ h ∈ shelf.facts, ∃ entry, store.entry? h = some entry ∧ (entry.moment, h) ∈ shelf.order ∧
    P entry.moment

namespace Files

/-- A member goes, and may change in the store. -/
theorem take (F : shelf.Files store P) {i : Handle}
    (hstore : ∀ j, j ≠ i → store'.entry? j = store.entry? j) : (shelf.take i).Files store' P := by
  intro h hh
  obtain ⟨hold, hne⟩ := mem_take.1 hh
  obtain ⟨entry, he, horder, hP⟩ := F h hold
  refine ⟨entry, (hstore h hne).trans he, ?_, hP⟩
  unfold Shelf.take
  split
  · dsimp only
    split
    · rw [Std.ExtTreeSet.mem_erase]
      refine ⟨fun heq => hne ?_, horder⟩
      have := Std.LawfulEqCmp.eq_of_compare heq
      exact (congrArg Prod.snd this).symm
    · exact horder
  · exact horder

theorem takeAll (F : shelf.Files store P) (hs : List Handle) :
    (hs.foldl Shelf.take shelf).Files store P := by
  induction hs generalizing shelf with
  | nil => exact F
  | cons h rest ih => exact ih (F.take fun _ _ => rfl)

/-- A fact comes to a time window. -/
theorem receive (F : shelf.Files store P) (hwindow : alpha.window = some (.time length))
    {now : Moment} (hcovers : ∀ moment, length.covers moment now = true → P moment) {i : Handle}
    {entry : Entry} (he : store.entry? i = some entry) :
    (shelf.receive alpha now i entry).Files store P := by
  unfold Shelf.receive
  split
  · next htakes =>
    simp only [AlphaNode.takes, hwindow, Bool.and_eq_true] at htakes
    refine takeAll (fun h hh => ?_) _
    simp only [enter, hwindow, put, Std.ExtTreeSet.mem_insert, Nat.compare_eq_eq] at hh ⊢
    rcases hh with rfl | hh
    · exact ⟨entry, he, .inl (by simp), hcovers _ htakes.2⟩
    · obtain ⟨entry', he', horder, hP⟩ := F h hh
      exact ⟨entry', he', .inr horder, hP⟩
  · exact F

/-- What is left when a time window has let go is covered by it. -/
theorem expire (F : shelf.Files store P) (hwindow : alpha.window = some (.time length))
    (now : Moment) :
    (shelf.expire alpha now).Files store fun moment => length.covers moment now = true := by
  intro h hh
  obtain ⟨entry, he, horder, -⟩ := F.takeAll (shelf.outdated alpha now) h hh
  refine ⟨entry, he, horder, ?_⟩
  obtain ⟨hold, hkept⟩ := mem_takeAll.1 hh
  obtain ⟨entry', he', horder', -⟩ := F h hold
  obtain rfl := Option.some.inj (he.symm.trans he')
  apply Decidable.byContradiction
  intro hcovers
  refine hkept ?_
  rw [outdated, hwindow]
  refine List.mem_map.2 ⟨(entry.moment, h), mem_takeWhile_of_pairwise ?_
    (Std.ExtTreeSet.mem_toList.2 horder') (by simpa using hcovers), rfl⟩
  refine shelf.order.ordered_toList.imp fun {a b} hlt hb => ?_
  have hle : a.1 ≤ b.1 := by
    have hfirst := (Ordering.then_eq_lt.1 hlt).imp_right And.left
    rcases hfirst with h | h
    · exact Int.le_of_lt (Int.compare_eq_lt.1 h)
    · exact Int.le_of_eq (Int.compare_eq_eq.1 h)
  rw [Bool.not_eq_true', ← Bool.not_eq_true] at hb ⊢
  exact fun ha => hb (Span.covers_mono hle ha)

end Files

end Shelf

namespace Session

variable {s t : Session} {P : Span → Moment → Prop}

/-! ## Sessions -/

/-- The time windows of a steady session keep their members by their moments, which meet a condition
    on the length of the window. -/
structure Files (s : Session) (P : Span → Moment → Prop) : Prop where
  steady : s.Steady
  wellFormed : s.network.WellFormed
  files : ∀ {a alpha length}, s.network.alpha? a = some alpha →
    alpha.window = some (.time length) → (s.matching.shelf a).Files s.store (P length)

/-- The time windows of a session cover all their members. -/
def Timely (s : Session) : Prop := s.Files fun length moment => length.covers moment s.now = true

namespace Files

theorem onward (h : s.Files P) {Q : Span → Moment → Prop} (ho : s.Onward t)
    (hfiles : ∀ {a alpha length}, s.network.alpha? a = some alpha →
      alpha.window = some (.time length) → (t.matching.shelf a).Files t.store (Q length)) :
    t.Files Q where
  steady := ho.steady
  wellFormed := ho.network ▸ h.wellFormed
  files ha := by
    rw [ho.network] at ha
    exact hfiles ha

/-- A live fact goes. -/
theorem remove (h : s.Files P) {i : Handle} {entry : Entry} (he : s.store.entry? i = some entry) :
    (s.remove i).2.Files P := by
  obtain ⟨store, hremove, -, -, hentry⟩ := WorkingMemory.remove?_live he
  refine h.onward (h.steady.remove h.wellFormed he) fun {a alpha length} ha hwindow => ?_
  rw [remove_eq hremove, shelf_applyEvents, store_applyEvents]
  show ((s.matching.retract s.network s.store i).shelf a).Files store (P length)
  rw [Matching.shelf_retract h.steady.kept.housed (WorkingMemory.fact?_eq he) a]
  exact (h.files ha hwindow).take fun j hj => by rw [hentry, if_neg (Ne.symm hj)]

theorem expireEach (h : s.Files P) (due : List Handle) : (due.foldl Session.expire s).Files P := by
  induction due generalizing s with
  | nil => exact h
  | cons i rest ih =>
    refine ih ?_
    unfold Session.expire
    split
    · next hlive =>
      obtain ⟨entry, he⟩ := WorkingMemory.contains_iff.1 hlive
      exact h.remove he
    · exact h

end Files

theorem clock_remove (s : Session) (i : Handle) : (s.remove i).2.clock = s.clock := by
  unfold remove
  dsimp only
  split
  · rfl
  · rw [clock_applyEvents]
    rfl

theorem clock_expireEach (due : List Handle) (s : Session) :
    (due.foldl Session.expire s).clock = s.clock := by
  induction due generalizing s with
  | nil => rfl
  | cons i rest ih =>
    rw [List.foldl_cons, ih]
    unfold Session.expire
    split
    · exact s.clock_remove i
    · rfl

theorem clock_synchronize (s : Session) : s.synchronize.clock = s.clock := by
  unfold Session.synchronize
  rw [clock_applyEvents]
  exact clock_expireEach _ _

theorem clock_receive (s : Session) (type : FactType) (fact : Fact) :
    (s.receive type fact).2.clock = s.clock := by
  rw [receive_eq s type fact rfl, clock_applyEvents]

theorem clock_exchange (s : Session) (type : FactType) (i : Handle) (fact : Fact)
    (previous : Moment) : (s.exchange type i fact previous).2.clock = s.clock := by
  unfold exchange
  dsimp only
  split
  · rfl
  · rw [clock_applyEvents]
    split
    · rfl
    · rw [schedule_eq]
      rfl

/-- Time windows let go what is too old. -/
theorem Files.synchronize (h : s.Files P) : s.synchronize.Timely := by
  have htaken : Files { s with expiry := s.expiry.takeDue s.now } P :=
    h.onward (h.steady.same rfl rfl rfl rfl rfl) h.files
  obtain ⟨t, ht⟩ : ∃ t, (s.expiry.due s.now).foldl Session.expire
    { s with expiry := s.expiry.takeDue s.now } = t := ⟨_, rfl⟩
  have hgone : t.Files P := ht ▸ htaken.expireEach (s.expiry.due s.now)
  have hnow : s.synchronize.now = s.now := congrArg Clock.now s.clock_synchronize
  rw [Timely, hnow]
  unfold Session.synchronize
  simp only [ht]
  refine hgone.onward (hgone.steady.applyEvents hgone.wellFormed
    (hgone.steady.unapplied_windows hgone.wellFormed s.now)) fun {a alpha length} ha hwindow => ?_
  rw [shelf_applyEvents, store_applyEvents]
  show ((t.matching.expireWindows t.network t.store s.now).shelf a).Files t.store _
  rw [Matching.shelf_expireWindows hgone.steady.kept.stocked s.now ha]
  exact (hgone.files ha hwindow).expire hwindow s.now

namespace Timely

theorem remove (h : s.Timely) {i : Handle} {entry : Entry} (he : s.store.entry? i = some entry) :
    (s.remove i).2.Timely := by
  have hnow : (s.remove i).2.now = s.now := congrArg Clock.now (s.clock_remove i)
  rw [Timely, hnow]
  exact Files.remove h he

/-- A checked fact comes. -/
theorem receive (h : s.Timely) {type : FactType} {fact : Fact} (hc : s.checkFact fact = .ok type) :
    (s.receive type fact).2.Timely := by
  have hnow : (s.receive type fact).2.now = s.now := congrArg Clock.now (s.clock_receive type fact)
  rw [Timely, hnow]
  obtain ⟨store, hstore⟩ : ∃ store, s.store.insert fact (type.moment fact s.now) = store := ⟨_, rfl⟩
  have hentry : ∀ i, store.entry? i = if s.store.nextHandle = i then
      some ⟨fact, type.moment fact s.now, 0⟩ else s.store.entry? i := fun i => by
    rw [← hstore, WorkingMemory.entry?_insert]
  have hold : ∀ {i entry}, s.store.entry? i = some entry → store.entry? i = s.store.entry? i :=
    fun he => by rw [hentry, if_neg (Nat.ne_of_gt (h.steady.fresh he))]
  refine Files.onward h (h.steady.receive h.wellFormed hc) fun {a alpha length} ha hwindow => ?_
  rw [receive_eq s type fact hstore, shelf_applyEvents, store_applyEvents]
  show ((s.matching.assert s.network store s.store.nextHandle s.now).shelf a).Files store _
  rw [Matching.shelf_assert (h.steady.kept.stocked.restock fun b i hi => by
    obtain ⟨alpha', entry, -, he, -⟩ := h.steady.kept.stocked.typed hi
    exact hold he) ((hentry _).trans (if_pos rfl)) s.now ha]
  refine Shelf.Files.receive (fun i hi => ?_) hwindow (fun _ => id) ((hentry _).trans (if_pos rfl))
  obtain ⟨entry, he, horder, hP⟩ := h.files ha hwindow i hi
  exact ⟨entry, (hold he).trans he, horder, hP⟩

/-- A live fact gets another value. -/
theorem exchange (h : s.Timely) {type : FactType} {i : Handle} {entry : Entry} {fact : Fact}
    (he : s.store.entry? i = some entry) (ht : entry.fact.type = fact.type)
    (hc : s.checkFact fact = .ok type) : (s.exchange type i fact entry.moment).2.Timely := by
  have hnow : (s.exchange type i fact entry.moment).2.now = s.now :=
    congrArg Clock.now (s.clock_exchange type i fact entry.moment)
  rw [Timely, hnow]
  obtain ⟨store, hreplace, -, -, hentry⟩ :=
    WorkingMemory.replace?_live he ht (type.moment fact entry.moment)
  refine Files.onward h (h.steady.exchange h.wellFormed he ht hc) fun {a alpha length} ha hwindow => ?_
  rw [exchange_eq type hreplace, shelf_applyEvents, store_applyEvents]
  show ((s.exchanged store i).shelf a).Files store _
  rw [Abreast.shelf_exchanged h.steady h.wellFormed he hentry ha]
  exact ((h.files ha hwindow).take fun j hj => by rw [hentry, if_neg (Ne.symm hj)]).receive hwindow
    (fun _ => id) ((hentry i).trans (if_pos rfl))

theorem insert (h : s.Timely) (fact : Fact) : (s.insert fact).2.Timely := by
  have hs := Files.synchronize h
  unfold Session.insert
  dsimp only
  split
  · exact hs
  · next type hc =>
    split
    · exact hs
    · exact hs.receive hc

theorem update (h : s.Timely) (i : Handle) (fact : Fact) : (s.update i fact).2.Timely := by
  have hs := Files.synchronize h
  unfold Session.update
  dsimp only
  split
  · exact hs
  · next entry he =>
    split
    · exact hs
    · next ht =>
      split
      · exact hs
      · next type hc => exact hs.exchange he (Decidable.of_not_not ht) hc

theorem retract (h : s.Timely) (i : Handle) : (s.retract i).2.Timely := by
  have hs := Files.synchronize h
  unfold Session.retract
  dsimp only
  split
  · next hlive =>
    obtain ⟨entry, he⟩ := WorkingMemory.contains_iff.1 hlive
    exact hs.remove he
  · exact hs

theorem advance (h : s.Timely) (span : Span) : (s.advance span).2.Timely := by
  unfold Session.advance
  split
  · exact h
  · next clock _ =>
    have hmoved : Files { s with clock } fun length moment => length.covers moment s.now = true :=
      Files.onward h (h.steady.same rfl rfl rfl rfl rfl) h.files
    exact hmoved.synchronize

/-- A change leaves time windows up to date. -/
theorem change (h : s.Timely) (c : Change) : (s.change c).Timely := by
  cases c with
  | insert fact => exact h.insert fact
  | update i fact => exact h.update i fact
  | modify i change =>
    unfold Session.change Session.modify
    dsimp only
    split
    · exact h
    · exact h.update i _
  | retract i => exact h.retract i
  | advance span => exact h.advance span

end Timely

/-! ## Runs -/

theorem clock_insert (s : Session) (fact : Fact) : (s.insert fact).2.clock = s.clock := by
  unfold Session.insert
  dsimp only
  split
  · exact s.clock_synchronize
  · split
    · exact s.clock_synchronize
    · rw [clock_receive, clock_synchronize]

theorem clock_update (s : Session) (i : Handle) (fact : Fact) :
    (s.update i fact).2.clock = s.clock := by
  unfold Session.update
  dsimp only
  split
  · exact s.clock_synchronize
  · split
    · exact s.clock_synchronize
    · split
      · exact s.clock_synchronize
      · rw [clock_exchange, clock_synchronize]

theorem clock_retract (s : Session) (i : Handle) : (s.retract i).2.clock = s.clock := by
  unfold Session.retract
  dsimp only
  split
  · rw [clock_remove, clock_synchronize]
  · exact s.clock_synchronize

/-- A change leaves the clock alone, or moves a manual clock on. -/
theorem clock_change (s : Session) (c : Change) : (s.change c).clock = s.clock ∨
    ∃ now span, s.clock = .manual now ∧
      (s.change c).clock = .manual (Moment.later now (Span.millis span)) := by
  cases c with
  | insert fact => exact .inl (s.clock_insert fact)
  | update i fact => exact .inl (s.clock_update i fact)
  | modify i change =>
    refine .inl ?_
    unfold Session.change Session.modify
    dsimp only
    split
    · rfl
    · exact s.clock_update i _
  | retract i => exact .inl (s.clock_retract i)
  | advance span =>
    unfold Session.change Session.advance
    dsimp only
    split
    · exact .inl rfl
    · next clock hclock =>
      unfold Clock.advance at hclock
      split at hclock
      · cases hclock
      · next now hnow =>
        cases hclock
        exact .inr ⟨now, span, hnow, clock_synchronize _⟩

theorem isManual_change (s : Session) (c : Change) :
    (s.change c).clock.isManual = s.clock.isManual := by
  rcases s.clock_change c with h | ⟨now, span, hnow, h⟩
  · rw [h]
  · rw [h, hnow]
    rfl

/-- Facts, matches, deadlines and a manual clock are left alone. -/
structure Beside (s t : Session) : Prop where
  store : t.store = s.store
  matching : t.matching = s.matching
  expiry : t.expiry = s.expiry
  clock : s.clock.isManual = true → t.clock = s.clock

theorem beside_clearGroup (s : Session) (group : String) : s.Beside (s.clearGroup group).2 := by
  rw [clearGroup_eq]
  exact ⟨rfl, rfl, rfl, fun _ => rfl⟩

/-- A step changes facts or moves the clock, lets go what is overdue, or leaves all that alone. -/
theorem Step.cases_beside (hs : Step s t) :
    (∃ c, t = s.change c) ∨ t = s.synchronize ∨ s.Beside t := by
  have hsame : ∀ {t : Session}, t.store = s.store → t.matching = s.matching →
      t.expiry = s.expiry → t.clock = s.clock → s.Beside t := fun h₁ h₂ h₃ h₄ =>
    ⟨h₁, h₂, h₃, fun _ => h₄⟩
  cases hs with
  | change c => exact .inl ⟨c, rfl⟩
  | synchronize => exact .inr (.inl rfl)
  | setFocus group => exact .inr (.inr (hsame rfl rfl rfl rfl))
  | popFocus => exact .inr (.inr (hsame rfl rfl rfl rfl))
  | clearGroup group => exact .inr (.inr (s.beside_clearGroup group))
  | unlock => exact .inr (.inr (hsame rfl rfl rfl rfl))
  | share globals => exact .inr (.inr (hsame rfl rfl rfl rfl))
  | halt halted => exact .inr (.inr (hsame rfl rfl rfl rfl))
  | begin a agenda hp => exact .inr (.inr (hsame rfl rfl rfl rfl))
  | finish firing event => exact .inr (.inr (hsame rfl rfl rfl rfl))
  | read reading hr =>
    refine .inr (.inr ⟨rfl, rfl, rfl, fun hmanual => ?_⟩)
    rw [hmanual] at hr
    cases hr

/-- Every step leaves time windows up to date where the clock is moved by hand. -/
theorem Step.timely (hs : Step s t) (h : s.Timely) (hmanual : s.clock.isManual = true) :
    t.Timely ∧ t.clock.isManual = true := by
  rcases hs.cases_beside with ⟨c, rfl⟩ | rfl | hb
  · exact ⟨h.change c, (s.isManual_change c).trans hmanual⟩
  · exact ⟨Files.synchronize h, by rw [clock_synchronize]; exact hmanual⟩
  · have hclock := hb.clock hmanual
    refine ⟨?_, by rw [hclock]; exact hmanual⟩
    have hnow : t.now = s.now := congrArg Clock.now hclock
    rw [Timely, hnow]
    refine Files.onward h (hs.onward h.steady h.wellFormed) fun ha hwindow => ?_
    rw [hb.store, hb.matching]
    exact h.files ha hwindow

theorem timely_start {base : RuleBase} (W : base.network.WellFormed) (settings : Settings)
    (reading : Moment) : (start base settings reading).Timely := by
  obtain ⟨hsteady, hbase, -⟩ := steady_start W settings reading
  refine ⟨hsteady, by rw [network, hbase]; exact W, fun {a alpha length} _ _ i hi => ?_⟩
  unfold start at hi
  rw [shelf_applyEvents, Matching.shelf_congr (AlphasKept.start base.network _).alphas,
    Matching.shelf, Matching.alpha, Matching.empty, Std.ExtTreeMap.getElem?_empty] at hi
  exact absurd hi Std.ExtTreeSet.not_mem_empty

/-- A session goes on with the kind of clock that it has begun with, and its time windows are up to
    date if that is a manual one. -/
theorem Reached.timely_and_manual {base : RuleBase} {settings : Settings}
    (W : base.network.WellFormed) (hclock : settings.clock = .manual)
    (h : Reached base settings s) : s.Timely ∧ s.clock.isManual = true := by
  induction h with
  | start reading =>
    refine ⟨timely_start W settings reading, ?_⟩
    show (applyEvents _).clock.isManual = true
    rw [clock_applyEvents, Clock.start, hclock]
    rfl
  | step _ hs ih => exact hs.timely ih.1 ih.2

/-- Time windows are up to date in every session with a manual clock. -/
theorem Reached.timely {base : RuleBase} {settings : Settings} (W : base.network.WellFormed)
    (hclock : settings.clock = .manual) (h : Reached base settings s) : s.Timely :=
  (h.timely_and_manual W hclock).1

/-- Memories of a session that are alike hold the same. -/
theorem Reached.abreast {base : RuleBase} {settings : Settings} (W : base.network.WellFormed)
    (h : Reached base settings s) : s.Abreast s := by
  induction h with
  | start reading => exact Abreast.start W W rfl rfl rfl rfl reading
  | step _ hs ih =>
    rcases hs.cases_beside with ⟨c, rfl⟩ | rfl | hb
    · exact ih.change c
    · exact ih.synchronize
    · have ho := hs.onward ih.steady ih.wellFormed
      refine ih.onward ho ho rfl rfl rfl fun {a b alpha beta} ha hb' hlike => ?_
      rw [hb.matching]
      exact ih.shelf ha hb' hlike

end Session

end RuleNet
