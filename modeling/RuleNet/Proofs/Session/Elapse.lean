/-
  Time passes in one go or in two.

  When a manual clock is moved, facts whose deadline has come go, and events leave the windows that
  they are too old for. Moved twice, more of them go the second time; in the end the same are left as
  when the clock is moved once, and with them everything that rests on them.

  * `Moment.later_later`: two spans lead to the same reading as their sum.
  * `Session.elapse`: a session when its clock shows a reading.
  * `Session.Tallies`: two sessions show the same.
  * `Session.Passing.elapse_elapse`: whether a session has been looked at in between does not matter.
  * `Session.Rests.advance_add`: so it is when a clock is moved between two requests.
-/
import RuleNet.Proofs.Query.Synchronized
import RuleNet.Proofs.Session.Cycled
import RuleNet.Proofs.Session.Ebb
import RuleNet.Proofs.Session.Schedule

namespace RuleNet

/-! ## Readings -/

/-- Whole milliseconds are counted up to the last reading. -/
theorem Span.millis_ofMillis (n : Nat) : (Span.ofMillis n).millis = min Moment.last (n : Int) := by
  show min Moment.last ((n * 1000000 / 1000000 : Nat) : Int) = _
  rw [Nat.mul_div_cancel n (by decide)]

/-- Time that passes does not lead below the first reading. -/
theorem Moment.later_eq {now : Moment} (hfirst : first ≤ now) (n : Nat) :
    now.later (Span.ofMillis n).millis = min last (now + min last (n : Int)) := by
  rw [Span.millis_ofMillis]
  refine Int.max_eq_right (Int.le_min.2 ⟨by decide, Int.le_trans hfirst ?_⟩)
  exact Int.le_add_of_nonneg_right (Int.le_min.2 ⟨by decide, Int.natCast_nonneg n⟩)

/-- Two spans lead to the same reading as their sum. Only where the sum is longer than a span can be
    counted, and the clock starts so early that it could still go on after that, they lead further. -/
theorem Moment.later_later {now : Moment} (hfirst : first ≤ now) (hlast : now ≤ last) {a b : Nat}
    (hsum : 0 < a → 0 < b → now < 0 → ((a + b : Nat) : Int) ≤ last) :
    (now.later (Span.ofMillis a).millis).later (Span.ofMillis b).millis =
      now.later (Span.ofMillis (a + b)).millis := by
  have hmiddle := Int.le_trans hfirst (le_later hlast (.ofMillis a))
  rw [later_eq hmiddle, later_eq hfirst, later_eq hfirst]
  have hcounted : ∀ t : Int, (0 < a → 0 < b → t < 0 → ((a + b : Nat) : Int) ≤ Integer64.greatest) →
      min Integer64.greatest (min Integer64.greatest (t + min Integer64.greatest (a : Int)) +
        min Integer64.greatest (b : Int)) =
      min Integer64.greatest (t + min Integer64.greatest ((a + b : Nat) : Int)) := fun t h => by
    simp only [Integer64.greatest] at h ⊢
    omega
  exact hcounted now hsum

/-- What a window covers it has covered before. -/
theorem Span.covers_of_later {length : Span} {moment now later : Moment} (hle : now ≤ later)
    (h : length.covers moment later = true) : length.covers moment now = true := by
  rw [covers, decide_eq_true_eq] at h ⊢
  exact Int.le_trans (Moment.earlier_mono hle _) h

/-! ## Shelves and schedules -/

/-- What a memory holds when members have gone depends on who is left. -/
theorem Shelf.takeAll_eq {shelf : Shelf} (O : shelf.Ordered) {hs hs' : List Handle}
    (hsame : ∀ i, i ∈ (hs.foldl take shelf).facts ↔ i ∈ (hs'.foldl take shelf).facts) :
    hs.foldl take shelf = hs'.foldl take shelf := by
  have horder : ∀ p i, (p, i) ∈ (hs.foldl take shelf).order ↔
      (p, i) ∈ (hs'.foldl take shelf).order := fun p i => by
    rw [mem_order_takeAll O, mem_order_takeAll O]
    refine and_congr_right fun hp => ?_
    have hi := hsame i
    rw [mem_takeAll, mem_takeAll] at hi
    exact (and_congr_right_iff.1 hi) (O.facts.2 ⟨p, O.order.1 hp⟩)
  refine Shelf.ext ?_ ?_ ?_ ?_
  · exact Std.ExtTreeSet.ext_mem fun i => hsame i
  · exact Std.ExtTreeSet.ext_mem fun ⟨p, i⟩ => horder p i
  · refine Std.ExtTreeMap.ext_getElem? fun {i} => Option.ext fun p => ?_
    rw [← (O.takeAll hs).order, ← (O.takeAll hs').order]
    exact horder p i
  · rw [arrivals_takeAll, arrivals_takeAll]

theorem Matching.facts_shelf (m : Matching) (a : AlphaId) : (m.shelf a).facts = m.members a := rfl

/-- There is one schedule that keeps given deadlines. -/
theorem ExpirySchedule.Keeps.unique {schedule schedule' : ExpirySchedule}
    {f : Handle → Option Moment} (h : schedule.Keeps f) (h' : schedule'.Keeps f) :
    schedule' = schedule := by
  obtain ⟨queue, deadlines⟩ := schedule
  obtain ⟨queue', deadlines'⟩ := schedule'
  rw [ExpirySchedule.mk.injEq]
  exact ⟨Std.ExtTreeSet.ext_mem fun ⟨_, _⟩ => h'.queue.trans h.queue.symm,
    Std.ExtTreeMap.ext_getElem? fun {i} => (h'.deadlines i).trans (h.deadlines i).symm⟩

namespace Session

variable {s t u : Session} {now later : Moment} {a : AlphaId} {alpha : AlphaNode} {i : Handle}

/-! ## What goes -/

/-- A fact has not reached its deadline by a reading of the clock. -/
def Lasts (s : Session) (now : Moment) (i : Handle) : Prop := ∀ d, s.deadline? i = some d → now < d

/-- What lasts until later lasts until then. -/
theorem Lasts.mono (h : s.Lasts later i) (hle : now ≤ later) : s.Lasts now i := fun d hd =>
  Int.lt_of_le_of_lt hle (h d hd)

theorem Punctual.not_mem_due_iff (h : s.Punctual) : i ∉ s.expiry.due s.now ↔ s.Lasts s.now i := by
  rw [h.mem_due, not_exists]
  exact forall_congr' fun d => not_and.trans (imp_congr_right fun _ => Int.not_le)

/-- Facts that last are left as they are. -/
theorem Punctual.entry?_synchronize (h : s.Punctual) (hs : s.Steady) (W : s.network.WellFormed)
    {entry : Entry} : s.synchronize.store.entry? i = some entry ↔
      s.store.entry? i = some entry ∧ s.Lasts s.now i := by
  rw [Session.entry?_synchronize hs W 0, Shelving.stored?_removeAll, h.not_mem_due_iff]
  exact Iff.rfl

/-- Members leave a memory, and nothing else happens to it. -/
theorem Steady.shelf_synchronize (h : s.Steady) (W : s.network.WellFormed)
    (ha : s.network.alpha? a = some alpha) : ∃ gone : List Handle,
      s.synchronize.matching.shelf a = gone.foldl Shelf.take (s.matching.shelf a) := by
  have hshelf := congrArg Shelving.shelf (shelving_synchronize h W ha)
  refine ⟨s.expiry.due s.now ++ ((s.expiry.due s.now).foldl Shelf.take
    (s.matching.shelf a)).outdated alpha s.now, hshelf.trans ?_⟩
  rw [List.foldl_append]
  show Shelf.expire (List.foldl Shelving.remove _ _).shelf alpha s.now = _
  rw [Shelving.shelf_removeAll]
  rfl

/-! ## A clock that is moved -/

/-- The session when a manual clock shows a reading, after what is overdue then has gone. -/
def elapse (s : Session) (now : Moment) : Session :=
  ({ s with clock := .manual now } : Session).synchronize

theorem clock_elapse (s : Session) (now : Moment) : (s.elapse now).clock = .manual now :=
  clock_synchronize { s with clock := .manual now }

/-- What a session has to be for nothing but the reading of its clock to matter. -/
structure Passing (s : Session) : Prop extends Placid s where
  punctual : s.Punctual
  dated : s.Dated
  ordered : ∀ {a alpha}, s.network.alpha? a = some alpha → (s.matching.shelf a).Ordered

/-- Two sessions show the same: the same time, facts, deadlines and memories, and the same rules wait
    for the same matches. -/
structure Agrees (s t : Session) : Prop where
  clock : t.clock = s.clock
  facts : ∀ i, t.store.entry? i = s.store.entry? i
  expiry : t.expiry = s.expiry
  memories : ∀ {a alpha}, s.network.alpha? a = some alpha → t.matching.shelf a = s.matching.shelf a
  pending : ∀ rule b, (∃ x ∈ t.agenda.pending, x.rule = rule ∧ x.binding = b) ↔
    ∃ x ∈ s.agenda.pending, x.rule = rule ∧ x.binding = b

namespace Passing

variable (P : s.Passing)
include P

/-- Another reading changes nothing by itself. -/
theorem tick (clock : Clock) : Passing { s with clock } where
  toPlacid := P.toPlacid.ebbs (sheds_ebbs.beside s clock s.expiry P.toPlacid)
  punctual := P.punctual.same rfl rfl rfl
  dated := P.dated
  ordered := P.ordered

theorem ebbs_elapse (now : Moment) : s.Ebbs (s.elapse now) := by
  have hticked := sheds_ebbs.beside s (.manual now) s.expiry P.toPlacid
  have hgone := sheds_ebbs.synchronize hticked.onward.steady P.wellFormed
  exact hticked.trans P.steady (hgone (P.toPlacid.ebbs hticked))

theorem entry?_elapse {entry : Entry} : (s.elapse now).store.entry? i = some entry ↔
    s.store.entry? i = some entry ∧ s.Lasts now i := by
  have P' := P.tick (.manual now)
  exact P'.punctual.entry?_synchronize P'.steady P'.wellFormed

theorem shelf_elapse (now : Moment) (ha : s.network.alpha? a = some alpha) : ∃ gone : List Handle,
    (s.elapse now).matching.shelf a = gone.foldl Shelf.take (s.matching.shelf a) := by
  have P' := P.tick (.manual now)
  exact P'.steady.shelf_synchronize P'.wellFormed ha

theorem mem_elapse (ha : s.network.alpha? a = some alpha) :
    i ∈ (s.elapse now).matching.members a ↔ i ∈ s.matching.members a ∧ s.Lasts now i ∧
      ∀ {length entry}, alpha.window = some (.time length) → s.store.entry? i = some entry →
        length.covers entry.moment now = true := by
  have P' := P.tick (.manual now)
  exact (P'.steady.mem_synchronize P'.wellFormed P'.dated ha).trans
    (and_congr_right fun _ => and_congr_left fun _ => P'.punctual.not_mem_due_iff)

theorem elapse (now : Moment) : (s.elapse now).Passing := by
  have P' := P.tick (.manual now)
  have E := P.ebbs_elapse now
  refine ⟨P.toPlacid.ebbs E, P'.punctual.synchronize.1, fun {a alpha} ha hu => ?_,
    fun {a alpha} ha => ?_⟩
  · rw [E.onward.network] at ha
    show (Session.synchronize _).shelving a |>.Dated alpha
    rw [shelving_synchronize P'.steady P'.wellFormed ha]
    exact (P'.dated ha hu).clear _ _
  · rw [E.onward.network] at ha
    obtain ⟨gone, hgone⟩ := P.shelf_elapse now ha
    rw [hgone]
    exact (P.ordered ha).takeAll gone

/-- What lasts is not changed by what goes. -/
theorem lasts_elapse (hi : ∃ entry, (s.elapse now).store.entry? i = some entry) :
    (s.elapse now).Lasts later i ↔ s.Lasts later i := by
  obtain ⟨entry, he⟩ := hi
  have hsame : (s.elapse now).deadline? i = s.deadline? i :=
    deadline?_congr (P.ebbs_elapse now).onward.base (he.trans (P.entry?_elapse.1 he).1.symm)
  rw [Lasts, Lasts, hsame]

theorem mem_elapse_elapse (hle : now ≤ later) (ha : s.network.alpha? a = some alpha) :
    i ∈ ((s.elapse now).elapse later).matching.members a ↔
      i ∈ (s.elapse later).matching.members a := by
  have P₁ := P.elapse now
  have ha₁ : (s.elapse now).network.alpha? a = some alpha :=
    (P.ebbs_elapse now).onward.network.symm ▸ ha
  refine (P₁.mem_elapse ha₁).trans (Iff.trans ?_ (P.mem_elapse ha).symm)
  constructor
  · rintro ⟨hmem, hlasts, hcovers⟩
    obtain ⟨-, entry, -, he, -⟩ := P₁.steady.kept.stocked.typed hmem
    refine ⟨((P.mem_elapse ha).1 hmem).1, (P.lasts_elapse ⟨entry, he⟩).1 hlasts,
      fun {length entry'} hwindow he' => ?_⟩
    obtain rfl := Option.some.inj ((P.entry?_elapse.1 he).1.symm.trans he')
    exact hcovers hwindow he
  · rintro ⟨hmem, hlasts, hcovers⟩
    obtain ⟨-, entry, -, he, -⟩ := P.steady.kept.stocked.typed hmem
    have hmiddle := P.entry?_elapse.2 ⟨he, hlasts.mono hle⟩
    refine ⟨(P.mem_elapse ha).2 ⟨hmem, hlasts.mono hle, fun {length entry'} hwindow he' => ?_⟩,
      (P.lasts_elapse ⟨entry, hmiddle⟩).2 hlasts, fun {length entry'} hwindow he' => ?_⟩
    · exact Span.covers_of_later hle (hcovers hwindow he')
    · exact hcovers hwindow (P.entry?_elapse.1 he').1

theorem entry?_elapse_elapse (hle : now ≤ later) (i : Handle) :
    ((s.elapse now).elapse later).store.entry? i = (s.elapse later).store.entry? i := by
  refine Option.ext fun entry => (P.elapse now).entry?_elapse.trans (Iff.trans ?_ P.entry?_elapse.symm)
  constructor
  · rintro ⟨he, hlasts⟩
    exact ⟨(P.entry?_elapse.1 he).1, (P.lasts_elapse ⟨entry, he⟩).1 hlasts⟩
  · rintro ⟨he, hlasts⟩
    have hmiddle := P.entry?_elapse.2 ⟨he, hlasts.mono hle⟩
    exact ⟨hmiddle, (P.lasts_elapse ⟨entry, hmiddle⟩).2 hlasts⟩

theorem shelf_elapse_elapse (hle : now ≤ later) (ha : s.network.alpha? a = some alpha) :
    ((s.elapse now).elapse later).matching.shelf a = (s.elapse later).matching.shelf a := by
  have hnet := (P.ebbs_elapse now).onward.network
  obtain ⟨gone, hgone⟩ := P.shelf_elapse later ha
  obtain ⟨gone₁, hgone₁⟩ := P.shelf_elapse now ha
  obtain ⟨gone₂, hgone₂⟩ := (P.elapse now).shelf_elapse later (hnet.symm ▸ ha)
  rw [hgone₁, ← List.foldl_append] at hgone₂
  rw [hgone, hgone₂]
  refine Shelf.takeAll_eq (P.ordered ha) fun i => ?_
  rw [← hgone, ← hgone₂, Matching.facts_shelf, Matching.facts_shelf]
  exact P.mem_elapse_elapse hle ha

theorem members_elapse_elapse (hle : now ≤ later) :
    ((s.elapse now).elapse later).matching.members = (s.elapse later).matching.members := by
  funext a
  cases ha : s.network.alpha? a with
  | none =>
    -- there is no such memory
    have hnone : ∀ {t : Session}, s.Onward t → ∀ i, i ∉ t.matching.members a := fun ho i hi => by
      obtain ⟨alpha, -, halpha, -⟩ := ho.steady.kept.stocked.typed hi
      rw [ho.network, ha] at halpha
      cases halpha
    have ho := (P.ebbs_elapse now).onward.trans ((P.elapse now).ebbs_elapse later).onward
    exact Std.ExtTreeSet.ext_mem fun i =>
      iff_of_false (hnone ho i) (hnone (P.ebbs_elapse later).onward i)
  | some alpha => rw [← Matching.facts_shelf, P.shelf_elapse_elapse hle ha, Matching.facts_shelf]

/-- Whether a session has been looked at in between does not matter. -/
theorem elapse_elapse (hle : now ≤ later) :
    (s.elapse later).Agrees ((s.elapse now).elapse later) := by
  have P₁ := P.elapse now
  have E := P.ebbs_elapse later
  have E₂ := (P.ebbs_elapse now).trans P.steady (P₁.ebbs_elapse later)
  have hfacts := P.entry?_elapse_elapse hle
  have hmembers := P.members_elapse_elapse hle
  refine ⟨?_, hfacts, ?_, fun {a alpha} ha => ?_, fun rule b => ⟨?_, ?_⟩⟩
  · rw [clock_elapse, clock_elapse]
  · have hkeeps := ExpirySchedule.Keeps.congr (P₁.elapse later).punctual fun i =>
      (deadline?_congr (E₂.onward.base.trans E.onward.base.symm) (hfacts i)).symm
    exact (P.elapse later).punctual.unique hkeeps
  · exact P.shelf_elapse_elapse hle (E.onward.network ▸ ha)
  · rintro ⟨x, hx, rfl, rfl⟩
    exact E₂.pending P.wellFormed E hmembers.symm hfacts hx
  · rintro ⟨x, hx, rfl, rfl⟩
    exact E.pending P.wellFormed E₂ hmembers (fun i => (hfacts i).symm) hx

end Passing

/-! ## Sessions between two requests -/

theorem unlocked_activate (s : Session) (τ : TerminalId) (t : TokenId)
    (h : s.agenda.locked = none) : (s.activate τ t).agenda.locked = none := by
  unfold activate
  split
  · exact h
  · split
    · exact h
    · next terminal _ _ rule _ =>
      split
      · exact h
      · have hfocus : ∀ {agenda : Agenda}, agenda.locked = none →
            (if rule.autoFocus then agenda.setFocus rule.group else agenda).locked = none :=
          fun hagenda => by
            split
            · exact Agenda.locked_setFocus hagenda _
            · exact hagenda
        have hcreated : (s.agenda.create terminal.rule τ t rule.salience rule.group
            (s.matching.binding s.store terminal.scope t)).locked = none := h
        dsimp only
        split <;> exact hfocus hcreated

/-- Nothing but a firing locks a group. -/
theorem carries_unlocked : Carries fun s t => s.agenda.locked = none → t.agenda.locked = none where
  refl _ := id
  trans h h' := h' ∘ h
  beside _ _ _ _ _ _ := id
  activate := unlocked_activate
  deactivate s τ t h := by
    have hcancel := (s.agenda.locked_cancel τ t).trans h
    unfold deactivate
    dsimp only
    split <;> exact hcancel

theorem unlocked_clearGroup (s : Session) (group : String) (h : s.agenda.locked = none) :
    (s.clearGroup group).2.agenda.locked = none := by
  rw [clearGroup_eq]
  exact (s.agenda.locked_clearGroup group).trans h

section
variable {declarations : Declarations} {base : RuleBase} {settings : Settings}

/-- Between two requests no group is locked. -/
theorem Rests.unlocked (h : Rests base settings s) : s.agenda.locked = none := by
  induction h with
  | start reading => exact carries_unlocked.applyEvents _ rfl
  | change _ c ih => exact carries_unlocked.change _ c ih
  | fire _ hf _ =>
    obtain ⟨_, _, _, _, _, -, -, -, ht, -⟩ := hf.ending
    obtain ⟨rfl, -⟩ := Clocked.mk.inj ht
    rfl
  | setFocus _ group ih => exact Agenda.locked_setFocus ih group
  | popFocus _ ih => exact Agenda.locked_popFocus ih
  | clearGroup _ group ih => exact unlocked_clearGroup _ group ih
  | share _ globals ih => exact ih
  | read _ reading hr ih => exact ih

/-- Every memory knows the order of its members. -/
theorem Reached.ordered (W : base.network.WellFormed) (h : Reached base settings s)
    (ha : base.network.alpha? a = some alpha) : (s.matching.shelf a).Ordered := by
  refine h.lockstep W ha ha (Q := fun x _ => x.shelf.Ordered) .empty fun {x _} now motion O => ?_
  have hclear : ∀ due : List Handle, (x.clear alpha now due).shelf.Ordered := fun due => by
    show (Shelf.expire (List.foldl Shelving.remove x due).shelf alpha now).Ordered
    rw [Shelving.shelf_removeAll]
    exact (O.takeAll due).expire alpha now
  cases motion with
  | clear due => exact hclear due
  | remove due i => exact (hclear due).take i
  | bring due i entry =>
    exact ((hclear due).take i).receive (fun hi => (Shelf.mem_take.1 hi).2 rfl) alpha now entry

/-- A manual clock shows a reading that a clock can show. -/
theorem Reached.reading (hclock : settings.clock = .manual)
    (hfirst : Moment.first ≤ settings.clockStart) (hlast : settings.clockStart ≤ Moment.last)
    (h : Reached base settings s) :
    ∃ now, s.clock = .manual now ∧ Moment.first ≤ now ∧ now ≤ Moment.last := by
  induction h with
  | start reading =>
    refine ⟨settings.clockStart, ?_, hfirst, hlast⟩
    show (applyEvents _).clock = _
    rw [clock_applyEvents, Clock.start, hclock]
  | @step s t _ hs ih =>
    obtain ⟨now, hnow, hfirst, hlast⟩ := ih
    have hread : s.now = now := congrArg Clock.now hnow
    obtain ⟨hle, hlast', hmanual⟩ := hs.now_le (by rw [hnow]; rfl) (hread ▸ hlast)
    cases ht : t.clock with
    | realtime reading =>
      rw [ht] at hmanual
      cases hmanual
    | manual later =>
      have hread' : t.now = later := congrArg Clock.now ht
      rw [hread, hread'] at hle
      exact ⟨later, rfl, Int.le_trans hfirst hle, hread' ▸ hlast'⟩

/-- Between two requests nothing but the reading of the clock matters for what waits. -/
theorem Rests.passing (hb : declarations.build = .ok base) (hsums : declarations.SumsIntegers)
    (hs : Rests base settings s) : s.Passing := by
  have W := Declarations.wellFormed_build hb
  obtain ⟨hsteady, hbase, -⟩ := hs.reached.steady W
  have hnet : s.network = base.network := congrArg RuleBase.network hbase
  refine ⟨⟨hsteady, hnet.symm ▸ W, ?_, hs.firing, hs.unlocked, fun {τ terminal} hτ => ?_⟩,
    hs.reached.punctual W, hs.reached.dated W, fun {a alpha} ha => ?_⟩
  · rw [hnet, hbase]
    exact Declarations.folds_build hb hsums
  · rw [hnet] at hτ
    obtain ⟨branch, ⟨rule, branches, hrule, -⟩, -⟩ := (Declarations.carries_build hb).drawn hτ
    exact ⟨rule, hbase.symm ▸ hrule⟩
  · exact hs.reached.ordered W (hnet ▸ ha)

theorem change_advance (h : s.clock = .manual now) (span : Span) :
    s.change (.advance span) = s.elapse (now.later span.millis) := by
  show (s.advance span).2 = _
  unfold advance
  rw [h]
  rfl

/-- Whether a manual clock is moved in one go or in two does not matter: it shows the same, the same
    facts are live with the same deadlines, memories hold the same, and the same rules wait for the
    same matches. Only where both spans take their time, the clock still shows a reading before 1970,
    and their sum is longer than a span can be counted, it lags behind when it is moved in one go. -/
theorem Rests.advance_add (hb : declarations.build = .ok base) (hsums : declarations.SumsIntegers)
    (hclock : settings.clock = .manual) (hfirst : Moment.first ≤ settings.clockStart)
    (hlast : settings.clockStart ≤ Moment.last) (hs : Rests base settings s) (a b : Nat)
    (hsum : 0 < a → 0 < b → s.now < 0 → ((a + b : Nat) : Int) ≤ Moment.last) :
    (s.change (.advance (.ofMillis (a + b)))).Agrees
      ((s.change (.advance (.ofMillis a))).change (.advance (.ofMillis b))) := by
  obtain ⟨now, hnow, hfirst, hlast⟩ := hs.reached.reading hclock hfirst hlast
  have hread : s.now = now := congrArg Clock.now hnow
  rw [change_advance hnow, change_advance hnow, change_advance (s.clock_elapse _),
    ← Moment.later_later hfirst hlast (hread ▸ hsum)]
  exact (hs.passing hb hsums).elapse_elapse (Moment.le_later (Moment.later_le_last now _) _)

end

/-- The rates of recent pulses are summed up, and it is noticed when there are none. -/
def pulses : Declarations where
  types := [⟨"pulse", [("rate", .integer)], .event, none, some (.ofMillis 100)⟩]
  rules := [⟨"recent", 0, mainGroup, false, false, false,
      .all [.accumulate ⟨⟨"pulse", none, [], [], some (.time (.ofMillis 50))⟩, .sum "rate", "total",
        none⟩], fun _ => .done⟩,
    ⟨"flat", 0, mainGroup, false, false, false,
      .all [.absent (.pattern ⟨"pulse", none, [], [], none⟩)], fun _ => .done⟩]
  queries := []

theorem sumsIntegers_pulses : pulses.SumsIntegers := by
  intro rule hrule acc hacc hneeds
  rcases List.mem_cons.1 hrule with rfl | hrule
  · simp only [Condition.leaves, Condition.leavesOfAll, List.append_nil, List.mem_singleton,
      Condition.accumulate.injEq] at hacc
    subst hacc
    exact ⟨⟨"pulse", [("rate", .integer)], .event, none, some (.ofMillis 100)⟩, "rate",
      by decide +kernel, rfl, rfl⟩
  · obtain rfl := List.mem_singleton.1 hrule
    simp [Condition.leaves, Condition.leavesOfAll] at hacc

/-- Two pulses come, 20 milliseconds apart. -/
def pulsesRun (base : RuleBase) : Session :=
  (((start base { Settings.standard with clock := .manual } 0).change
    (.insert ⟨"pulse", [("rate", .integer 3)]⟩)).change (.advance (.ofMillis 20))).change
    (.insert ⟨"pulse", [("rate", .integer 4)]⟩)

theorem rests_pulsesRun (base : RuleBase) :
    Rests base { Settings.standard with clock := .manual } (pulsesRun base) :=
  (((Rests.start 0).change _).change _).change _

/-- Moved in two goes, the clock stops where only the second pulse is recent. In the end both pulses
    have gone, and the same two rules wait as if it had not stopped. -/
theorem advance_add_pulsesRun : ∃ base, pulses.build = .ok base ∧ pulses.SumsIntegers ∧
    Rests base { Settings.standard with clock := .manual } (pulsesRun base) ∧
    ((pulsesRun base).change (.advance (.ofMillis 40))).agenda.pending.map
      (fun a => a.binding.values) = [[("total", .integer 4)]] ∧
    ((pulsesRun base).change (.advance (.ofMillis 130))).agenda.pending.map
      (fun a => a.binding.values) = [[("total", .integer 0)], []] ∧
    ((pulsesRun base).change (.advance (.ofMillis 130))).Agrees
      (((pulsesRun base).change (.advance (.ofMillis 40))).change (.advance (.ofMillis 90))) := by
  obtain ⟨base, hb, hrun⟩ := Declarations.build_of_passes pulses (fun base => decide (
    ((pulsesRun base).change (.advance (.ofMillis 40))).agenda.pending.map
      (fun a => a.binding.values) = [[("total", .integer 4)]] ∧
    ((pulsesRun base).change (.advance (.ofMillis 130))).agenda.pending.map
      (fun a => a.binding.values) = [[("total", .integer 0)], []])) (by decide +kernel)
  obtain ⟨hmiddle, hend⟩ := of_decide_eq_true hrun
  exact ⟨base, hb, sumsIntegers_pulses, rests_pulsesRun base, hmiddle, hend,
    Rests.advance_add hb sumsIntegers_pulses rfl (by decide) (by decide) (rests_pulsesRun base) 40 90
      fun _ _ _ => by decide⟩

/-- A clock that starts 10 milliseconds before 1970, and is moved by more than a span can be counted,
    goes further in two goes than in one. -/
theorem not_advance_add_early : ∃ base, (⟨[], [], []⟩ : Declarations).build = .ok base ∧
    let s := start base { Settings.standard with clock := .manual, clockStart := -10 } 0
    Rests base { Settings.standard with clock := .manual, clockStart := -10 } s ∧
    ((s.change (.advance (.ofMillis 9223372036854775807))).change (.advance (.ofMillis 5))).clock =
      .manual 9223372036854775802 ∧
    (s.change (.advance (.ofMillis (9223372036854775807 + 5)))).clock =
      .manual 9223372036854775797 ∧
    ¬ (s.change (.advance (.ofMillis (9223372036854775807 + 5)))).Agrees
      ((s.change (.advance (.ofMillis 9223372036854775807))).change (.advance (.ofMillis 5))) := by
  obtain ⟨base, hb, -⟩ := Declarations.build_of_passes ⟨[], [], []⟩ (fun _ => true)
    (by decide +kernel)
  refine ⟨base, hb, .start 0, ?_⟩
  obtain ⟨s, hs⟩ : ∃ s, start base { Settings.standard with clock := .manual, clockStart := -10 } 0 =
    s := ⟨_, rfl⟩
  have hclock : s.clock = .manual (-10) := by
    rw [← hs]
    exact clock_applyEvents _
  rw [hs]
  have htwice : ((s.change (.advance (.ofMillis 9223372036854775807))).change
      (.advance (.ofMillis 5))).clock = .manual 9223372036854775802 := by
    rw [change_advance hclock, change_advance (s.clock_elapse _), clock_elapse]
    decide
  have honce : (s.change (.advance (.ofMillis (9223372036854775807 + 5)))).clock =
      .manual 9223372036854775797 := by
    rw [change_advance hclock, clock_elapse]
    decide
  refine ⟨htwice, honce, fun h => ?_⟩
  have hsame := h.clock
  rw [htwice, honce] at hsame
  exact absurd hsame (by decide)

end Session

end RuleNet
