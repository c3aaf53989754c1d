/-
  How a session goes on from one request to the next.

  Every request first lets go what is overdue, then changes working memory and matches together, and
  in the end applies the events.

  * `Session.Steady.synchronize`, `Session.Steady.receive`, `Session.Steady.exchange`,
    `Session.Steady.remove`: the changes that requests are made of keep a session steady.
  * `Session.Step`, `Session.Reached`: one request, and the sessions that requests lead to, those
    included that an action makes while it runs.
  * `Session.Reached.steady`: all of them are steady.
-/
import RuleNet.Proofs.Session.Steady
import RuleNet.Proofs.WorkingMemory
import RuleNet.Session.Mailbox

namespace RuleNet

/-- Whether results are marked does not change. -/
theorem undeferred {α : Type} {a b : Option α} (h : a.isSome = b.isSome) (hb : b = none) :
    a = none := by
  cases a
  · rfl
  · rw [hb] at h
    cases h

/-- The schedule with the deadline of a fact, if facts of its type have one. -/
def ExpirySchedule.plan (schedule : ExpirySchedule) (type : FactType) (h : Handle)
    (moment : Moment) : ExpirySchedule := match type.expiresAfter with
  | some span => schedule.put h (moment.later span.millis)
  | none => schedule

namespace Session

/-! ## What requests change -/

/-- The matches before an update, whose results are marked only where updates are coalesced. -/
def begun (s : Session) : Matching :=
  if s.settings.updatePolicy == .coalesce then s.matching.beginUpdate else s.matching

/-- The matches of an updated fact: it leaves with its old value and enters with the new one. -/
def exchanged (s : Session) (store : WorkingMemory) (i : Handle) : Matching :=
  let asserted := (s.begun.retract s.network s.store i).assert s.network store i s.now
  if s.settings.updatePolicy == .coalesce then asserted.endUpdate s.network store else asserted

theorem schedule_eq (s : Session) (type : FactType) (i : Handle) (moment : Moment) :
    s.schedule type i moment = { s with expiry := s.expiry.plan type i moment } := by
  unfold schedule ExpirySchedule.plan
  cases type.expiresAfter <;> rfl

theorem remove_eq {s : Session} {i : Handle} {entry : Entry} {store : WorkingMemory}
    (hr : s.store.remove? i = .ok (entry, store)) : s.remove i = (.ok entry.fact,
      ({ s with
        store
        matching := s.matching.retract s.network s.store i
        expiry := s.expiry.cancel i
        journal := s.journal.push (.retracted i entry.fact) } : Session).applyEvents) := by
  unfold remove
  simp only [hr]
  rfl

theorem receive_eq (s : Session) (type : FactType) (fact : Fact) {store : WorkingMemory}
    (hstore : s.store.insert fact (type.moment fact s.now) = store) :
    s.receive type fact = (s.store.nextHandle,
      ({ s with
        store
        matching := s.matching.assert s.network store s.store.nextHandle s.now
        expiry := s.expiry.plan type s.store.nextHandle (type.moment fact s.now)
        journal := s.journal.push (.inserted s.store.nextHandle fact) } : Session).applyEvents) := by
  unfold receive
  simp only [hstore, schedule_eq]
  rfl

theorem exchange_eq {s : Session} (type : FactType) {i : Handle} {fact : Fact} {previous : Moment}
    {entry : Entry} {store : WorkingMemory}
    (hr : s.store.replace? i fact (type.moment fact previous) = .ok (entry, store)) :
    s.exchange type i fact previous = (.ok (),
      ({ s with
        store
        matching := s.exchanged store i
        expiry := if type.moment fact previous = previous then s.expiry
          else s.expiry.plan type i (type.moment fact previous)
        journal := s.journal.push (.updated i entry.fact fact) } : Session).applyEvents) := by
  unfold exchange
  simp only [hr, schedule_eq]
  split <;> rfl

variable {s s' : Session}

/-- Where nothing that the matches rest on changes, a session stays steady while activations go. -/
theorem Steady.aside (h : s.Steady) (hb : s'.base = s.base) (hset : s'.settings = s.settings)
    (hs : s'.store = s.store) (hm : s'.matching = s.matching) (ha : s'.agenda.Consistent)
    (hget : ∀ {id a}, s'.agenda.get? id = some a → s.agenda.get? id = some a) : s.Onward s' := by
  have hnet : s'.network = s.network := by rw [network, hb]
  refine ⟨hb, hset, ?_⟩
  constructor
  · rw [hnet, hs, hm, hset]
    exact h.kept
  · rw [hm]
    exact h.told
  · rw [hm]
    exact h.direct
  · rw [hs]
    exact h.fresh
  · rw [hs, hb]
    exact h.conforms
  · exact ha
  · intro id a hid
    exact (current_congr hb hs hm).2 (h.current (hget hid))

/-- Nothing that matches and agenda rest on has changed. -/
theorem Steady.same (h : s.Steady) (hb : s'.base = s.base) (hset : s'.settings = s.settings)
    (hs : s'.store = s.store) (hm : s'.matching = s.matching) (ha : s'.agenda = s.agenda) :
    s.Onward s' :=
  h.aside hb hset hs hm (ha ▸ h.agenda) fun hid => ha ▸ hid

/-- What is still due after the events were taken. -/
abbrev due (s : Session) : Ledger :=
  .rest s.network (s.matching.Stands s.network) s.settings.updatePolicy.agree

theorem quiet_due (s : Session) : s.due.Quiet :=
  Ledger.quiet_rest s.settings.updatePolicy.agree_refl

/-- The matches have changed, and the facts outside of all memories with them. -/
theorem unapplied (hb : s'.base = s.base) (hset : s'.settings = s.settings)
    (ha : s'.agenda = s.agenda) (k : Kept s.network s'.store s.due s'.matching)
    (hd : s'.matching.deferred = none)
    (hf : ∀ {i entry}, s'.store.entry? i = some entry → i < s'.store.nextHandle)
    (hc : s.base.Conforms s'.store)
    (hp : Matching.Proceeds s.network s.store s'.store s.matching s'.matching) :
    Unapplied s s' :=
  ⟨hb, hset, ha, k, hd, hf, hb ▸ hc, hp⟩

/-- Facts that are in no memory come and go without a trace. -/
theorem proceeds_restock {net : Network} {store store' : WorkingMemory} {x : Ledger} {m : Matching}
    (k : Kept net store x m) (hx : x.Quiet) (hlate : ∀ n i, ¬ x.late n i)
    (hsame : ∀ a, ∀ i ∈ m.members a, store'.entry? i = store.entry? i) :
    Matching.Proceeds net store store' m m := by
  refine ⟨Evolves.refl k.sound.forest, fun hlt ho i hi => ?_⟩
  obtain ⟨a, ha⟩ := k.sound.mem_handles hx.idle hlate ho i hi
  exact hsame a i ha

/-- The tokens that are left when a fact has gone do not rest on it. -/
theorem proceeds_retracted {net : Network} {store store' : WorkingMemory} {x : Ledger}
    {m m' : Matching} {i : Handle} (R : Retracted net store x i m m') (hx : x.Quiet)
    (hlate : ∀ n i, ¬ x.late n i) (hsame : ∀ j, j ≠ i → store'.entry? j = store.entry? j) :
    Matching.Proceeds net store store' m' m' :=
  proceeds_restock R.kept hx hlate fun _ j hj => hsame j (R.members.1 hj).2

/-! ## Removing -/

/-- A live fact has gone, and the agenda does not know yet. -/
theorem Steady.unapplied_remove (h : s.Steady) (W : s.network.WellFormed) {i : Handle}
    {entry : Entry} (he : s.store.entry? i = some entry) {store : WorkingMemory}
    (hremove : s.store.remove? i = .ok (entry, store)) : s.Unapplied { s with
      store
      matching := s.matching.retract s.network s.store i
      expiry := s.expiry.cancel i
      journal := s.journal.push (.retracted i entry.fact) } := by
  obtain ⟨store', hremove', hnext, -, hentry⟩ := WorkingMemory.remove?_live he
  obtain rfl : store = store' := by
    rw [hremove'] at hremove
    cases hremove
    rfl
  obtain ⟨m, hm⟩ : ∃ m, s.matching.retract s.network s.store i = m := ⟨_, rfl⟩
  have hx : s.due.Quiet := s.quiet_due
  have R := h.kept.retract W hx (WorkingMemory.fact?_eq he) hm
  have hsame : ∀ j, j ≠ i → store.entry? j = s.store.entry? j := fun j hj =>
    (hentry j).trans (if_neg (Ne.symm hj))
  have hp : Matching.Proceeds s.network s.store store s.matching m :=
    (Matching.Proceeds.of_evolves R.evolves).trans
      (proceeds_retracted R hx (fun _ _ hl => hl) hsame) h.kept.sound.forest R.kept.sound.forest
  have hd : m.deferred = none := undeferred R.deferring h.direct
  rw [hm]
  refine unapplied rfl rfl rfl ?_ hd (fun {j entry'} hj => ?_) (fun {j entry'} hj => ?_) hp
  · exact R.kept.restock hx.idle (fun _ _ hl => hl) fun _ j hj => hsame j (R.members.1 hj).2
  · show j < store.nextHandle
    rw [hentry] at hj
    split at hj
    · cases hj
    · exact hnext ▸ h.fresh hj
  · rw [hentry] at hj
    split at hj
    · cases hj
    · exact h.conforms hj

/-- A live fact goes. -/
theorem Steady.remove (h : s.Steady) (W : s.network.WellFormed) {i : Handle} {entry : Entry}
    (he : s.store.entry? i = some entry) : s.Onward (s.remove i).2 := by
  obtain ⟨store, hremove, -⟩ := WorkingMemory.remove?_live he
  rw [remove_eq hremove]
  exact h.applyEvents W (h.unapplied_remove W he hremove)

/-- A fact whose deadline has come goes. -/
theorem Steady.expire (h : s.Steady) (W : s.network.WellFormed) (i : Handle) :
    s.Onward (s.expire i) := by
  unfold Session.expire
  split
  · next hlive =>
    obtain ⟨entry, he⟩ := WorkingMemory.contains_iff.1 hlive
    exact h.remove W he
  · exact h.refl

/-- Facts go one after the other. -/
theorem Steady.expireEach (h : s.Steady) (W : s.network.WellFormed) (due : List Handle) :
    s.Onward (due.foldl Session.expire s) := by
  induction due generalizing s with
  | nil => exact h.refl
  | cons i rest ih =>
    have ho := h.expire W i
    exact ho.trans (ih ho.steady (ho.wellFormed W))

/-- Events have left the windows they are too old for, and the agenda does not know yet. -/
theorem Steady.unapplied_windows (h : s.Steady) (W : s.network.WellFormed) (now : Moment) :
    s.Unapplied { s with matching := s.matching.expireWindows s.network s.store now } := by
  obtain ⟨k, hd, E⟩ := h.kept.expireWindows W s.quiet_due (fun _ _ hl => hl) now rfl
  exact unapplied rfl rfl rfl k (undeferred hd h.direct) h.fresh h.conforms (.of_evolves E)

/-- What is overdue goes. -/
theorem Steady.synchronize (h : s.Steady) (W : s.network.WellFormed) : s.Onward s.synchronize := by
  have htaken : s.Onward { s with expiry := s.expiry.takeDue s.now } := h.same rfl rfl rfl rfl rfl
  have hgone := htaken.trans (htaken.steady.expireEach W (s.expiry.due s.now))
  obtain ⟨s', hs'⟩ : ∃ s', (s.expiry.due s.now).foldl Session.expire
      { s with expiry := s.expiry.takeDue s.now } = s' := ⟨_, rfl⟩
  rw [hs'] at hgone
  unfold Session.synchronize
  simp only [hs']
  have W' : s'.network.WellFormed := hgone.wellFormed W
  exact hgone.trans (hgone.steady.applyEvents W' (hgone.steady.unapplied_windows W' s.now))

/-! ## Receiving -/

/-- A fact that fits its type has been checked. -/
theorem checkFact_eq {fact : Fact} {type : FactType} (h : s.checkFact fact = .ok type) :
    s.base.type? fact.type = some type ∧ type.check fact = .ok () := by
  unfold checkFact at h
  split at h
  · cases h
  · next type' htype =>
    split at h
    · cases h
    · next hcheck =>
      cases h
      exact ⟨htype, hcheck⟩

/-- A checked fact has been stored and matched, and the agenda does not know yet. -/
theorem Steady.unapplied_receive (h : s.Steady) (W : s.network.WellFormed) {type : FactType}
    {fact : Fact} (hc : s.checkFact fact = .ok type) {store : WorkingMemory}
    (hstore : s.store.insert fact (type.moment fact s.now) = store) : s.Unapplied { s with
      store
      matching := s.matching.assert s.network store s.store.nextHandle s.now
      expiry := s.expiry.plan type s.store.nextHandle (type.moment fact s.now)
      journal := s.journal.push (.inserted s.store.nextHandle fact) } := by
  have hentry : ∀ i, store.entry? i = if s.store.nextHandle = i then
      some ⟨fact, type.moment fact s.now, 0⟩ else s.store.entry? i := fun i =>
    hstore ▸ s.store.entry?_insert fact _ i
  have hnext : store.nextHandle = s.store.nextHandle + 1 := hstore ▸ rfl
  have hx : s.due.Quiet := s.quiet_due
  -- the handle is new, so no memory has it
  have hlive : ∀ a, ∀ i ∈ s.matching.members a, i < s.store.nextHandle := fun a i hi => by
    obtain ⟨alpha, entry, -, he, -⟩ := h.kept.stocked.typed hi
    exact h.fresh he
  have hsame : ∀ a, ∀ i ∈ s.matching.members a, store.entry? i = s.store.entry? i := fun a i hi => by
    rw [hentry, if_neg (Nat.ne_of_gt (hlive a i hi))]
  have k := h.kept.restock hx.idle (fun _ _ hl => hl) hsame
  obtain ⟨m, hm⟩ : ∃ m, s.matching.assert s.network store s.store.nextHandle s.now = m := ⟨_, rfl⟩
  obtain ⟨k', hd, E⟩ := k.assert W hx (fun _ _ hl => hl) ((hentry _).trans (if_pos rfl))
    (fun a hi => Nat.lt_irrefl _ (hlive a _ hi)) (fun n left hexposed => hexposed) hm
  have hp := (proceeds_restock h.kept hx (fun _ _ hl => hl) hsame).trans (.of_evolves E)
    h.kept.sound.forest h.kept.sound.forest
  rw [hm]
  refine unapplied rfl rfl rfl k' (undeferred hd h.direct) (fun {i entry} hi => ?_)
    (fun {i entry} hi => ?_) hp
  · show i < store.nextHandle
    rw [hentry] at hi
    rw [hnext]
    split at hi
    · next heq => exact heq ▸ Nat.lt_succ_self _
    · exact Nat.lt_succ_of_lt (h.fresh hi)
  · rw [hentry] at hi
    split at hi
    · cases hi
      exact ⟨type, checkFact_eq hc⟩
    · exact h.conforms hi

/-- A checked fact is stored and matched. -/
theorem Steady.receive (h : s.Steady) (W : s.network.WellFormed) {type : FactType} {fact : Fact}
    (hc : s.checkFact fact = .ok type) : s.Onward (s.receive type fact).2 := by
  rw [receive_eq s type fact rfl]
  exact h.applyEvents W (h.unapplied_receive W hc rfl)

/-! ## Changing -/

/-- What becomes of the matches when a live fact gets another value; `mid` are those without it. -/
structure Changed (s : Session) (store : WorkingMemory) (mid m : Matching) : Prop where
  kept : Kept s.network store s.due m
  direct : m.deferred = none
  hither : Matching.Proceeds s.network s.store s.store s.matching mid
  onward : Matching.Proceeds s.network s.store store mid m
  /-- The matches without the fact are sound as well. -/
  forest : mid.Forest s.network

/-- An update begins with matches that are right. -/
theorem Steady.begun (h : s.Steady) : Kept s.network s.store s.due s.begun ∧
    Matching.Proceeds s.network s.store s.store s.matching s.begun := by
  have E : Evolves s.network .all s.matching s.matching := .refl h.kept.sound.forest
  unfold Session.begun
  split
  · exact ⟨h.kept.beginUpdate, ⟨E.next, E.survive, E.born⟩, fun _ _ _ _ => rfl⟩
  · exact ⟨h.kept, .of_evolves E⟩

theorem Steady.exchanged (h : s.Steady) (W : s.network.WellFormed) {i : Handle}
    {entry entry' : Entry} {store : WorkingMemory} (he : s.store.entry? i = some entry)
    (hentry : ∀ j, store.entry? j = if i = j then some entry' else s.store.entry? j) :
    s.Changed store (s.begun.retract s.network s.store i) (s.exchanged store i) := by
  have hx : s.due.Quiet := s.quiet_due
  have F := h.kept.sound.forest
  obtain ⟨kb, hp₀⟩ := h.begun
  obtain ⟨m₁, hm₁⟩ : ∃ m, s.begun.retract s.network s.store i = m := ⟨_, rfl⟩
  have R := kb.retract W hx (WorkingMemory.fact?_eq he) hm₁
  have F₁ := R.kept.sound.forest
  have hsame : ∀ j, j ≠ i → store.entry? j = s.store.entry? j := fun j hj =>
    (hentry j).trans (if_neg (Ne.symm hj))
  have k₁ := R.kept.restock hx.idle (fun _ _ hl => hl) fun _ j hj => hsame j (R.members.1 hj).2
  obtain ⟨m₂, hm₂⟩ : ∃ m, m₁.assert s.network store i s.now = m := ⟨_, rfl⟩
  obtain ⟨k₂, hd₂, E₂⟩ := k₁.assert W hx (fun _ _ hl => hl) ((hentry i).trans (if_pos rfl))
    (fun a hi => (R.members.1 hi).2 rfl) (fun n left hexposed => hexposed) hm₂
  have hp₁ := hp₀.trans (.of_evolves R.evolves) F kb.sound.forest
  have hp₂ := (proceeds_retracted R hx (fun _ _ hl => hl) hsame).trans (.of_evolves E₂) F₁ F₁
  unfold Session.exchanged
  simp only [hm₁, hm₂]
  split
  · next hcoalesce =>
    have hpolicy : s.settings.updatePolicy = .coalesce := eq_of_beq hcoalesce
    obtain ⟨k₃, hd₃, E₃⟩ := k₂.endUpdate W hx (fun _ _ hl => hl)
      (fun a b hab => by
        show s.settings.updatePolicy.agree a b
        rw [hpolicy]
        exact Or.inr hab) rfl
    exact ⟨k₃, hd₃, hp₁, hp₂.trans (.of_evolves E₃) F₁ k₂.sound.forest, F₁⟩
  · next hstepwise =>
    have hbegun : s.begun = s.matching := if_neg hstepwise
    exact ⟨k₂, undeferred (hd₂.trans R.deferring) (hbegun ▸ h.direct), hp₁, hp₂, F₁⟩

/-- A live fact has got another value of its type, and the agenda does not know yet. -/
theorem Steady.unapplied_exchange (h : s.Steady) (W : s.network.WellFormed) {type : FactType}
    {i : Handle} {entry : Entry} {fact : Fact} (he : s.store.entry? i = some entry)
    (ht : entry.fact.type = fact.type) (hc : s.checkFact fact = .ok type) {store : WorkingMemory}
    {expiry : ExpirySchedule} {moment : Moment}
    (hreplace : s.store.replace? i fact moment = .ok (entry, store)) : s.Unapplied { s with
      store
      matching := s.exchanged store i
      expiry
      journal := s.journal.push (.updated i entry.fact fact) } := by
  obtain ⟨store', hreplace', hnext, -, hentry⟩ := WorkingMemory.replace?_live he ht moment
  obtain rfl : store = store' := by
    rw [hreplace'] at hreplace
    cases hreplace
    rfl
  have C := h.exchanged W he hentry
  have hconforms : s.base.Conforms store := fun {j entry'} hj => by
    rw [hentry] at hj
    split at hj
    · cases hj
      exact ⟨type, checkFact_eq hc⟩
    · exact h.conforms hj
  have hfresh : ∀ {j entry'}, store.entry? j = some entry' → j < store.nextHandle :=
    fun {j entry'} hj => by
      rw [hentry] at hj
      rw [hnext]
      split at hj
      · next heq => exact heq ▸ h.fresh he
      · exact h.fresh hj
  exact unapplied rfl rfl rfl C.kept C.direct hfresh hconforms
    (C.hither.trans C.onward h.kept.sound.forest C.forest)

/-- A live fact gets another value of its type. -/
theorem Steady.exchange (h : s.Steady) (W : s.network.WellFormed) {type : FactType} {i : Handle}
    {entry : Entry} {fact : Fact} (he : s.store.entry? i = some entry)
    (ht : entry.fact.type = fact.type) (hc : s.checkFact fact = .ok type) :
    s.Onward (s.exchange type i fact entry.moment).2 := by
  obtain ⟨store, hreplace, -⟩ :=
    WorkingMemory.replace?_live he ht (type.moment fact entry.moment)
  rw [exchange_eq type hreplace]
  exact h.applyEvents W (h.unapplied_exchange W he ht hc hreplace)

end Session

end RuleNet
