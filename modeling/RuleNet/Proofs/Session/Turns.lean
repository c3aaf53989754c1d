/-
  What a request does to one memory.

  A request first lets facts go whose deadline has come, then lets the window go what is too old, and
  then takes one fact away or brings one. What becomes of a memory can be told from the facts alone.

  * `Shelving`: a memory and the facts of the session it belongs to.
  * `Shelving.Turn`: the motions of one request.
  * `Session.Step.turn`: every step is such a turn, or leaves facts and memory alone.
-/
import RuleNet.Proofs.Session.Order

namespace RuleNet

/-! ## Readings -/

theorem Moment.later_le_last (now : Moment) (span : Span) : now.later span.millis ≤ Moment.last := by
  show max Integer64.least (min Integer64.greatest (now + span.millis)) ≤ Integer64.greatest
  simp only [Integer64.least, Integer64.greatest]
  omega

/-- A clock that can show its reading does not go back. -/
theorem Moment.le_later {now : Moment} (h : now ≤ Moment.last) (span : Span) :
    now ≤ now.later span.millis := by
  have hspan : 0 ≤ span.millis := Int.le_min.2 ⟨by decide, Int.natCast_nonneg _⟩
  have hsum : now ≤ now + span.millis := Int.le_add_of_nonneg_right hspan
  exact Int.le_trans (Int.le_min.2 ⟨h, hsum⟩) (Int.le_max_right _ _)

/-! ## Memories -/

/-- What a memory holds, and the facts of its session. -/
@[ext]
structure Shelving where
  stored? : Handle → Option Entry
  shelf : Shelf

namespace Shelving

/-- A fact goes. -/
def remove (x : Shelving) (i : Handle) : Shelving where
  stored? j := if i = j then none else x.stored? j
  shelf := x.shelf.take i

/-- The window lets go what is too old. -/
def age (x : Shelving) (alpha : AlphaNode) (now : Moment) : Shelving :=
  { x with shelf := x.shelf.expire alpha now }

/-- A fact comes, or changes. -/
def bring (x : Shelving) (alpha : AlphaNode) (now : Moment) (i : Handle) (entry : Entry) :
    Shelving where
  stored? j := if i = j then some entry else x.stored? j
  shelf := (x.shelf.take i).receive alpha now i entry

/-- What is overdue goes. -/
def clear (x : Shelving) (alpha : AlphaNode) (now : Moment) (due : List Handle) : Shelving :=
  (due.foldl remove x).age alpha now

/-- One request: what is overdue goes, and then a fact may go, come or change. -/
inductive Motion where
  | clear (due : List Handle)
  | remove (due : List Handle) (i : Handle)
  | bring (due : List Handle) (i : Handle) (entry : Entry)

/-- What a request does to a memory. -/
def move (x : Shelving) (alpha : AlphaNode) (now : Moment) : Motion → Shelving
  | .clear due => x.clear alpha now due
  | .remove due i => (x.clear alpha now due).remove i
  | .bring due i entry => (x.clear alpha now due).bring alpha now i entry

/-- What a request brings was not there before. -/
def Motion.New (stored? : Handle → Option Entry) : Motion → Prop
  | bring _ i entry => stored? i ≠ some entry
  | _ => True

/-- A memory has gone through one request. -/
inductive Turn (alpha : AlphaNode) (now : Moment) (x : Shelving) : Shelving → Prop
  | clear (due : List Handle) : Turn alpha now x (x.clear alpha now due)
  | remove (due : List Handle) (i : Handle) : Turn alpha now x ((x.clear alpha now due).remove i)
  | bring (due : List Handle) (i : Handle) (entry : Entry) (hnew : x.stored? i ≠ some entry) :
    Turn alpha now x ((x.clear alpha now due).bring alpha now i entry)

theorem turn_move (x : Shelving) (alpha : AlphaNode) (now : Moment) {motion : Motion}
    (hnew : motion.New x.stored?) : Turn alpha now x (x.move alpha now motion) := by
  cases motion with
  | clear due => exact .clear due
  | remove due i => exact .remove due i
  | bring due i entry => exact .bring due i entry hnew

theorem stored?_remove {x : Shelving} {i j : Handle} {entry : Entry} :
    (x.remove i).stored? j = some entry ↔ i ≠ j ∧ x.stored? j = some entry := by
  simp only [remove]
  by_cases hij : i = j
  · simp [hij]
  · simp [hij]

theorem stored?_removeAll {x : Shelving} {due : List Handle} {j : Handle} {entry : Entry} :
    (due.foldl remove x).stored? j = some entry ↔ x.stored? j = some entry ∧ j ∉ due := by
  induction due generalizing x with
  | nil => simp
  | cons i rest ih =>
    rw [List.foldl_cons, ih, stored?_remove, List.mem_cons, not_or, and_comm (a := i ≠ j), and_assoc,
      ne_comm]

theorem shelf_removeAll (due : List Handle) (x : Shelving) :
    (due.foldl remove x).shelf = due.foldl Shelf.take x.shelf := by
  induction due generalizing x with
  | nil => rfl
  | cons i rest ih => exact ih (x.remove i)

/-- Facts that are left are the same ones. -/
theorem stored?_clear {x : Shelving} {alpha : AlphaNode} {now : Moment} {due : List Handle}
    {j : Handle} {entry : Entry} :
    (x.clear alpha now due).stored? j = some entry ↔ x.stored? j = some entry ∧ j ∉ due :=
  stored?_removeAll

end Shelving

namespace Session

variable {s t : Session} {a : AlphaId} {alpha : AlphaNode}

/-- A memory of a session, and the facts. -/
def shelving (s : Session) (a : AlphaId) : Shelving := ⟨s.store.entry?, s.matching.shelf a⟩

/-! ## Motions -/

/-- What is not live is in no memory. -/
theorem Steady.not_mem_shelf (h : s.Steady) {i : Handle} (hno : s.store.entry? i = none) :
    i ∉ (s.matching.shelf a).facts := fun hi => by
  obtain ⟨_, entry, _, he, _⟩ := h.kept.stocked.typed hi
  rw [hno] at he
  cases he

theorem shelving_remove (h : s.Steady) {i : Handle} {entry : Entry}
    (he : s.store.entry? i = some entry) (a : AlphaId) :
    (s.remove i).2.shelving a = (s.shelving a).remove i := by
  obtain ⟨store, hremove, -, -, hentry⟩ := WorkingMemory.remove?_live he
  rw [remove_eq hremove]
  ext1
  · show WorkingMemory.entry? (applyEvents _).store = _
    rw [store_applyEvents]
    exact funext hentry
  · show (applyEvents _).matching.shelf a = _
    rw [shelf_applyEvents]
    exact Matching.shelf_retract h.kept.housed (WorkingMemory.fact?_eq he) a

theorem shelving_expire (h : s.Steady) (i : Handle) (a : AlphaId) :
    (s.expire i).shelving a = (s.shelving a).remove i := by
  unfold Session.expire
  split
  · next hlive =>
    obtain ⟨entry, he⟩ := WorkingMemory.contains_iff.1 hlive
    exact shelving_remove h he a
  · next hno =>
    have hnone : s.store.entry? i = none := by
      cases he : s.store.entry? i with
      | none => rfl
      | some entry => exact absurd (WorkingMemory.contains_iff.2 ⟨entry, he⟩) hno
    ext1
    · funext j
      show s.store.entry? j = if i = j then none else s.store.entry? j
      split
      · next hij => rw [← hij, hnone]
      · rfl
    · exact (Shelf.take_of_not_mem (h.not_mem_shelf hnone)).symm

theorem shelving_expireEach (h : s.Steady) (W : s.network.WellFormed) (due : List Handle)
    (a : AlphaId) :
    (due.foldl Session.expire s).shelving a = due.foldl Shelving.remove (s.shelving a) := by
  induction due generalizing s with
  | nil => rfl
  | cons i rest ih =>
    have ho := h.expire W i
    rw [List.foldl_cons, List.foldl_cons, ih ho.steady (ho.wellFormed W), shelving_expire h]

theorem entry?_synchronize (h : s.Steady) (W : s.network.WellFormed) (a : AlphaId) :
    s.synchronize.store.entry? =
      ((s.expiry.due s.now).foldl Shelving.remove (s.shelving a)).stored? := by
  have htaken : s.Onward { s with expiry := s.expiry.takeDue s.now } := h.same rfl rfl rfl rfl rfl
  have hshelving := shelving_expireEach htaken.steady W (s.expiry.due s.now) a
  unfold Session.synchronize
  rw [store_applyEvents]
  exact congrArg Shelving.stored? hshelving

/-- What is overdue goes. -/
theorem shelving_synchronize (h : s.Steady) (W : s.network.WellFormed)
    (ha : s.network.alpha? a = some alpha) :
    s.synchronize.shelving a = (s.shelving a).clear alpha s.now (s.expiry.due s.now) := by
  have htaken : s.Onward { s with expiry := s.expiry.takeDue s.now } := h.same rfl rfl rfl rfl rfl
  have hgone := htaken.trans (htaken.steady.expireEach W (s.expiry.due s.now))
  have hshelving := shelving_expireEach htaken.steady W (s.expiry.due s.now) a
  ext1
  · exact entry?_synchronize h W a
  · unfold Session.synchronize
    show (applyEvents _).matching.shelf a = _
    rw [shelf_applyEvents]
    refine (Matching.shelf_expireWindows hgone.steady.kept.stocked s.now (hgone.network ▸ ha)).trans ?_
    show Shelf.expire _ alpha s.now = Shelf.expire _ alpha s.now
    exact congrArg (fun x : Shelving => x.shelf.expire alpha s.now) hshelving

/-- A checked fact comes. -/
theorem shelving_receive (h : s.Steady) {type : FactType} {fact : Fact}
    (ha : s.network.alpha? a = some alpha) :
    (s.receive type fact).2.shelving a = (s.shelving a).bring alpha s.now s.store.nextHandle
      ⟨fact, type.moment fact s.now, 0⟩ := by
  obtain ⟨store, hstore⟩ : ∃ store, s.store.insert fact (type.moment fact s.now) = store := ⟨_, rfl⟩
  have hentry : ∀ i, store.entry? i = if s.store.nextHandle = i then
      some ⟨fact, type.moment fact s.now, 0⟩ else s.store.entry? i := fun i => by
    rw [← hstore, WorkingMemory.entry?_insert]
  have hfree : s.store.entry? s.store.nextHandle = none := by
    cases he : s.store.entry? s.store.nextHandle with
    | none => rfl
    | some entry => exact absurd (h.fresh he) (Nat.lt_irrefl _)
  rw [receive_eq s type fact hstore]
  ext1
  · show WorkingMemory.entry? (applyEvents _).store = _
    rw [store_applyEvents]
    exact funext hentry
  · show (applyEvents _).matching.shelf a = _
    rw [shelf_applyEvents]
    show (s.matching.assert s.network store s.store.nextHandle s.now).shelf a =
      ((s.matching.shelf a).take s.store.nextHandle).receive ..
    rw [Shelf.take_of_not_mem (h.not_mem_shelf hfree)]
    refine Matching.shelf_assert (h.kept.stocked.restock fun b i hi => ?_)
      ((hentry _).trans (if_pos rfl)) s.now ha
    obtain ⟨_, entry, -, he, -⟩ := h.kept.stocked.typed hi
    rw [hentry, if_neg (Nat.ne_of_gt (h.fresh he))]

/-- A live fact gets another value. -/
theorem shelving_exchange (h : s.Steady) (W : s.network.WellFormed) {type : FactType} {i : Handle}
    {entry : Entry} {fact : Fact} (he : s.store.entry? i = some entry)
    (ht : entry.fact.type = fact.type) (ha : s.network.alpha? a = some alpha) :
    (s.exchange type i fact entry.moment).2.shelving a = (s.shelving a).bring alpha s.now i
      ⟨fact, type.moment fact entry.moment, entry.generation + 1⟩ := by
  obtain ⟨store, hreplace, -, -, hentry⟩ :=
    WorkingMemory.replace?_live he ht (type.moment fact entry.moment)
  rw [exchange_eq type hreplace]
  ext1
  · show WorkingMemory.entry? (applyEvents _).store = _
    rw [store_applyEvents]
    exact funext hentry
  · show (applyEvents _).matching.shelf a = _
    rw [shelf_applyEvents]
    exact Abreast.shelf_exchanged h W he hentry ha

/-! ## Requests -/

theorem nextHandle_synchronize (s : Session) : s.synchronize.store.nextHandle = s.store.nextHandle := by
  have hexpire : ∀ (i : Handle) (s : Session),
      (s.expire i).store.nextHandle = s.store.nextHandle := fun i s => by
    unfold Session.expire
    split
    · next hlive =>
      obtain ⟨entry, he⟩ := WorkingMemory.contains_iff.1 hlive
      obtain ⟨store, hremove, hnext, -⟩ := WorkingMemory.remove?_live he
      rw [remove_eq hremove, store_applyEvents]
      exact hnext
    · rfl
  have heach : ∀ (due : List Handle) (s : Session),
      (due.foldl Session.expire s).store.nextHandle = s.store.nextHandle := by
    intro due
    induction due with
    | nil => exact fun _ => rfl
    | cons i rest ih => exact fun s => (ih _).trans (hexpire i s)
  unfold Session.synchronize
  rw [store_applyEvents]
  exact heach _ _

/-- All memories of a session have gone through one request. -/
def Turns (s t : Session) : Prop :=
  ∃ motion : Shelving.Motion, motion.New s.store.entry? ∧
    ∀ {a alpha}, s.network.alpha? a = some alpha →
      t.shelving a = (s.shelving a).move alpha t.now motion

theorem now_synchronize (s : Session) : s.synchronize.now = s.now :=
  congrArg Clock.now s.clock_synchronize

theorem turns_synchronize (h : s.Steady) (W : s.network.WellFormed) : s.Turns s.synchronize := by
  refine ⟨.clear (s.expiry.due s.now), trivial, fun {a alpha} ha => ?_⟩
  rw [now_synchronize, shelving_synchronize h W ha]
  rfl

theorem turns_insert (h : s.Steady) (W : s.network.WellFormed) (fact : Fact) :
    s.Turns (s.insert fact).2 := by
  have hs := h.synchronize W
  have hclear := turns_synchronize h W
  unfold Session.insert
  dsimp only
  split
  · exact hclear
  · next type hc =>
    split
    · exact hclear
    · have hnow : (s.synchronize.receive type fact).2.now = s.now := by
        rw [Session.now, clock_receive, clock_synchronize, Session.now]
      refine ⟨.bring (s.expiry.due s.now) s.synchronize.store.nextHandle
        ⟨fact, type.moment fact s.now, 0⟩, fun he => ?_, fun {a alpha} ha => ?_⟩
      · exact Nat.ne_of_lt (h.fresh he) s.nextHandle_synchronize
      · show (s.synchronize.receive type fact).2.shelving a =
          (s.shelving a).move alpha (s.synchronize.receive type fact).2.now _
        rw [hnow, shelving_receive hs.steady (hs.network ▸ ha), shelving_synchronize h W ha,
          now_synchronize]
        rfl

theorem turns_update (h : s.Steady) (W : s.network.WellFormed) (i : Handle) (fact : Fact) :
    s.Turns (s.update i fact).2 := by
  have hs := h.synchronize W
  have hclear := turns_synchronize h W
  unfold Session.update
  dsimp only
  split
  · exact hclear
  · next entry he =>
    split
    · exact hclear
    · next ht =>
      split
      · exact hclear
      · next type hc =>
        have hnow : (s.synchronize.exchange type i fact entry.moment).2.now = s.now := by
          rw [Session.now, clock_exchange, clock_synchronize, Session.now]
        refine ⟨.bring (s.expiry.due s.now) i
          ⟨fact, type.moment fact entry.moment, entry.generation + 1⟩, fun hsame => ?_,
          fun {a alpha} ha => ?_⟩
        · have hold : s.store.entry? i = some entry := by
            rw [entry?_synchronize h W 0] at he
            exact (Shelving.stored?_removeAll.1 he).1
          have hgeneration := congrArg Entry.generation (Option.some.inj (hold.symm.trans hsame))
          exact Nat.succ_ne_self _ hgeneration.symm
        · rw [hnow, shelving_exchange hs.steady (hs.wellFormed W) he (Decidable.of_not_not ht)
            (hs.network ▸ ha), shelving_synchronize h W ha, now_synchronize]
          rfl

theorem turns_retract (h : s.Steady) (W : s.network.WellFormed) (i : Handle) :
    s.Turns (s.retract i).2 := by
  have hs := h.synchronize W
  have hclear := turns_synchronize h W
  unfold Session.retract
  dsimp only
  split
  · next hlive =>
    obtain ⟨entry, he⟩ := WorkingMemory.contains_iff.1 hlive
    have hnow : (s.synchronize.remove i).2.now = s.now := by
      rw [Session.now, clock_remove, clock_synchronize, Session.now]
    refine ⟨.remove (s.expiry.due s.now) i, trivial, fun {a alpha} ha => ?_⟩
    rw [hnow, shelving_remove hs.steady he, shelving_synchronize h W ha]
    rfl
  · exact hclear

/-- Facts, memories and a manual clock are as they were. -/
def Still (s t : Session) : Prop :=
  (∀ a, t.shelving a = s.shelving a) ∧ (s.clock.isManual = true → t.clock = s.clock)

/-- A change is one request to every memory, or leaves them alone. -/
theorem turns_change (h : s.Steady) (W : s.network.WellFormed) (c : Change) :
    s.Still (s.change c) ∨ s.Turns (s.change c) := by
  cases c with
  | insert fact => exact .inr (turns_insert h W fact)
  | update i fact => exact .inr (turns_update h W i fact)
  | modify i change =>
    unfold Session.change Session.modify
    dsimp only
    split
    · exact .inl ⟨fun _ => rfl, fun _ => rfl⟩
    · exact .inr (turns_update h W i _)
  | retract i => exact .inr (turns_retract h W i)
  | advance span =>
    unfold Session.change Session.advance
    dsimp only
    split
    · exact .inl ⟨fun _ => rfl, fun _ => rfl⟩
    · next clock _ =>
      have hmoved : s.Onward { s with clock } := h.same rfl rfl rfl rfl rfl
      exact .inr (turns_synchronize (s := { s with clock }) hmoved.steady W)

/-- A step is one request to all memories, or leaves them alone. -/
theorem Step.turns (hs : Step s t) (h : s.Steady) (W : s.network.WellFormed) :
    s.Still t ∨ s.Turns t := by
  rcases hs.cases_beside with ⟨c, rfl⟩ | rfl | hb
  · exact turns_change h W c
  · exact .inr (turns_synchronize h W)
  · refine .inl ⟨fun a => ?_, hb.clock⟩
    rw [shelving, hb.store, hb.matching]
    rfl

/-- A step is one request to a memory, or leaves it alone. -/
theorem Step.turn (hs : Step s t) (h : s.Steady) (W : s.network.WellFormed)
    (ha : s.network.alpha? a = some alpha) :
    (t.shelving a = s.shelving a ∧ (s.clock.isManual = true → t.clock = s.clock)) ∨
      Shelving.Turn alpha t.now (s.shelving a) (t.shelving a) := by
  rcases hs.turns h W with ⟨hsame, hclock⟩ | ⟨motion, hnew, hmove⟩
  · exact .inl ⟨hsame a, hclock⟩
  · rw [hmove ha]
    exact .inr (Shelving.turn_move _ alpha t.now hnew)

/-! ## Clocks -/

/-- A manual clock never goes back from a reading it can show. -/
theorem Step.now_le (hs : Step s t) (hmanual : s.clock.isManual = true) (hlast : s.now ≤ Moment.last) :
    s.now ≤ t.now ∧ t.now ≤ Moment.last ∧ t.clock.isManual = true := by
  have hsame : ∀ {t : Session}, t.clock = s.clock →
      s.now ≤ t.now ∧ t.now ≤ Moment.last ∧ t.clock.isManual = true := fun {t} ht => by
    rw [Session.now, Session.now, ht]
    exact ⟨Int.le_refl _, hlast, hmanual⟩
  rcases hs.cases_beside with ⟨c, rfl⟩ | rfl | hb
  · rcases s.clock_change c with h | ⟨now, span, hnow, h⟩
    · exact hsame h
    · have hread : s.now = now := congrArg Clock.now hnow
      have hlater : (s.change c).now = now.later span.millis := congrArg Clock.now h
      rw [hread] at hlast ⊢
      rw [hlater, h]
      exact ⟨Moment.le_later hlast span, Moment.later_le_last now span, rfl⟩
  · exact hsame s.clock_synchronize
  · exact hsame (hb.clock hmanual)

end Session

end RuleNet
