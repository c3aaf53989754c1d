/-
  Deadlines.

  The schedule of a session keeps each deadline twice, by its fact and in order of time. Both say the
  same, and they say it of exactly the live facts whose types let them expire.

  * `ExpirySchedule.Keeps`: a schedule keeps the deadlines that a function gives.
  * `ExpirySchedule.Keeps.put`, `cancel`, `takeDue`: what its operations do to that function.
  * `Session.deadline?`: the moment from which a live fact is overdue.
  * `Session.Punctual`: the schedule of a session keeps the deadlines of its live facts.
  * `Session.Reached.punctual`: so it is in every session that requests lead to.
  * `Session.Undue`: nothing is overdue; so it is after a synchronisation.
-/
import RuleNet.Proofs.Session.Acting
import RuleNet.Proofs.Session.Refusal
import RuleNet.Proofs.Session.Timely

namespace RuleNet

/-! ## Schedules -/

namespace ExpirySchedule

variable {schedule : ExpirySchedule} {f : Handle → Option Moment}

/-- A schedule keeps the deadlines that a function gives, by fact and in order of time. -/
structure Keeps (schedule : ExpirySchedule) (f : Handle → Option Moment) : Prop where
  deadlines : ∀ h, schedule.deadlines[h]? = f h
  queue : ∀ {d h}, (d, h) ∈ schedule.queue ↔ f h = some d

theorem keeps_empty : empty.Keeps fun _ => none where
  deadlines _ := Std.ExtTreeMap.getElem?_empty
  queue := by simp [empty]

namespace Keeps

theorem congr {g : Handle → Option Moment} (h : schedule.Keeps f) (hfg : ∀ i, g i = f i) :
    schedule.Keeps g where
  deadlines i := (h.deadlines i).trans (hfg i).symm
  queue {d i} := by rw [hfg]; exact h.queue

/-- A fact loses its deadline. -/
theorem cancel (h : schedule.Keeps f) (i : Handle) :
    (schedule.cancel i).Keeps fun j => if j = i then none else f j := by
  unfold ExpirySchedule.cancel
  rw [h.deadlines]
  cases hi : f i with
  | none =>
    refine h.congr fun j => ?_
    split
    · next heq => rw [heq, hi]
    · rfl
  | some deadline =>
    constructor
    · intro j
      rw [getElem?_erase_eq, h.deadlines]
      simp only [eq_comm]
    · intro d j
      rw [Std.ExtTreeSet.mem_erase, h.queue]
      constructor
      · rintro ⟨hne, hj⟩
        rw [if_neg]
        · exact hj
        · rintro rfl
          rw [hi] at hj
          cases hj
          exact hne Std.ReflCmp.compare_self
      · intro hj
        split at hj
        · cases hj
        · next hne =>
          refine ⟨fun heq => hne ?_, hj⟩
          exact (congrArg Prod.snd (Std.LawfulEqCmp.eq_of_compare heq)).symm

/-- A fact gets a deadline in place of any it had. -/
theorem put (h : schedule.Keeps f) (i : Handle) (deadline : Moment) :
    (schedule.put i deadline).Keeps fun j => if j = i then some deadline else f j := by
  have hrest := h.cancel i
  unfold ExpirySchedule.put
  constructor
  · intro j
    rw [getElem?_insert_eq, hrest.deadlines]
    by_cases hij : j = i
    · simp [hij]
    · rw [if_neg (Ne.symm hij), if_neg hij, if_neg hij]
  · intro d j
    rw [Std.ExtTreeSet.mem_insert, hrest.queue]
    by_cases hij : j = i
    · subst hij
      simp only [if_true, reduceCtorEq, or_false, Option.some.injEq]
      constructor
      · exact fun heq => congrArg Prod.fst (Std.LawfulEqCmp.eq_of_compare heq)
      · rintro rfl
        exact Std.ReflCmp.compare_self
    · rw [if_neg hij, if_neg hij]
      refine or_iff_right fun heq => hij ?_
      exact (congrArg Prod.snd (Std.LawfulEqCmp.eq_of_compare heq)).symm

/-- Some facts lose their deadlines. -/
theorem cancelEach (h : schedule.Keeps f) (gone : List Handle) :
    (gone.foldl ExpirySchedule.cancel schedule).Keeps fun j => if j ∈ gone then none else f j := by
  induction gone generalizing schedule f with
  | nil => exact h.congr fun j => by simp
  | cons i rest ih =>
    refine (ih (h.cancel i)).congr fun j => ?_
    by_cases hij : j = i <;> by_cases hrest : j ∈ rest <;> simp [hij, hrest]

/-- What is due is what has a deadline that has come. -/
theorem mem_due (h : schedule.Keeps f) {now : Moment} {i : Handle} :
    i ∈ schedule.due now ↔ ∃ d, f i = some d ∧ d ≤ now := by
  unfold due
  rw [List.mem_map]
  constructor
  · rintro ⟨⟨d, j⟩, hmem, rfl⟩
    refine ⟨d, h.queue.1 (Std.ExtTreeSet.mem_toList.1 (List.takeWhile_subset _ hmem)), ?_⟩
    have hall := @List.all_takeWhile _ (fun entry : Moment × Handle => decide (entry.1 ≤ now))
      schedule.queue.toList
    exact of_decide_eq_true (List.all_eq_true.1 hall (d, j) hmem)
  · rintro ⟨d, hd, hle⟩
    refine ⟨(d, i), mem_takeWhile_of_pairwise ?_ (Std.ExtTreeSet.mem_toList.2 (h.queue.2 hd))
      (decide_eq_true hle), rfl⟩
    refine schedule.queue.ordered_toList.imp fun {a b} hlt hb => ?_
    have hfirst : a.1 ≤ b.1 := by
      rcases (Ordering.then_eq_lt.1 hlt).imp_right And.left with h | h
      · exact Int.le_of_lt (Int.compare_eq_lt.1 h)
      · exact Int.le_of_eq (Int.compare_eq_eq.1 h)
    rw [decide_eq_true_eq] at hb ⊢
    exact Int.le_trans hfirst hb

/-- What is due loses its deadline. -/
theorem takeDue (h : schedule.Keeps f) (now : Moment) :
    (schedule.takeDue now).Keeps fun j => if j ∈ schedule.due now then none else f j :=
  h.cancelEach _

theorem isExpired (h : schedule.Keeps f) {i : Handle} {now : Moment} :
    schedule.isExpired i now = true ↔ ∃ d, f i = some d ∧ d ≤ now := by
  unfold ExpirySchedule.isExpired
  rw [h.deadlines]
  cases f i <;> simp

/-- A fact gets the deadline that its type says, if it says one. -/
theorem plan (h : schedule.Keeps f) (type : FactType) {i : Handle} (moment : Moment)
    (hf : type.expiresAfter = none → f i = none) : (schedule.plan type i moment).Keeps fun j =>
      if j = i then type.expiresAfter.map fun span => moment.later span.millis else f j := by
  unfold ExpirySchedule.plan
  cases htype : type.expiresAfter with
  | some span => exact h.put i _
  | none =>
    refine h.congr fun j => ?_
    split
    · next heq => rw [heq, hf htype]; rfl
    · rfl

end Keeps

end ExpirySchedule

namespace Session

/-! ## Sessions -/

/-- The moment from which a live fact is overdue, if facts of its type expire: so long after it
    happened as its type says. -/
def deadline? (s : Session) (h : Handle) : Option Moment := do
  let entry ← s.store.entry? h
  let type ← s.base.type? entry.fact.type
  let span ← type.expiresAfter
  some (entry.moment.later span.millis)

/-- The schedule keeps the deadlines of the live facts. -/
def Punctual (s : Session) : Prop := s.expiry.Keeps s.deadline?

/-- No live fact has reached its deadline. -/
def Undue (s : Session) : Prop := ∀ {h d}, s.deadline? h = some d → s.now < d

variable {s t : Session}

/-- The deadline of a live fact is read off its type and its moment. -/
theorem deadline?_eq {h : Handle} {entry : Entry} {type : FactType}
    (he : s.store.entry? h = some entry) (ht : s.base.type? entry.fact.type = some type) :
    s.deadline? h = type.expiresAfter.map fun span => entry.moment.later span.millis := by
  simp only [deadline?, he, ht, Option.bind_some, bind]
  cases type.expiresAfter <;> rfl

theorem deadline?_eq_none {h : Handle} (hn : s.store.entry? h = none) : s.deadline? h = none := by
  simp only [deadline?, hn]
  rfl

/-- Where a fact has not changed, neither has its deadline. -/
theorem deadline?_congr (hb : t.base = s.base) {h : Handle}
    (he : t.store.entry? h = s.store.entry? h) : t.deadline? h = s.deadline? h := by
  unfold deadline?
  rw [he, hb]

/-- A live fact goes, and its deadline with it. -/
theorem deadline?_remove {i : Handle} {entry : Entry} (he : s.store.entry? i = some entry)
    (j : Handle) : (s.remove i).2.deadline? j = if j = i then none else s.deadline? j := by
  obtain ⟨store, hremove, -, -, hentry⟩ := WorkingMemory.remove?_live he
  have hstore : (s.remove i).2.store = store := by rw [remove_eq hremove, store_applyEvents]
  by_cases hij : j = i
  · rw [if_pos hij, deadline?_eq_none (by rw [hstore, hentry, if_pos hij.symm])]
  · rw [if_neg hij, deadline?_congr (onto_remove s i).base]
    rw [hstore, hentry, if_neg (Ne.symm hij)]

/-- A live fact goes whose deadline has been forgotten or not. -/
theorem keeps_remove {f : Handle → Option Moment} (h : s.expiry.Keeps f) {i : Handle} {entry : Entry}
    (he : s.store.entry? i = some entry) :
    (s.remove i).2.expiry.Keeps fun j => if j = i then none else f j := by
  obtain ⟨store, hremove, -⟩ := WorkingMemory.remove?_live he
  rw [remove_eq hremove, expiry_applyEvents]
  exact h.cancel i

/-- The deadlines of facts that are still to be let go have been forgotten, and only their facts may
    be overdue. -/
structure Expiring (s : Session) (now : Moment) (due : List Handle) : Prop where
  keeps : s.expiry.Keeps fun j => if j ∈ due then none else s.deadline? j
  undue : ∀ {j d}, j ∉ due → s.deadline? j = some d → now < d

/-- One of them is let go. -/
theorem Expiring.expire {now : Moment} {i : Handle} {due : List Handle}
    (h : s.Expiring now (i :: due)) : (s.expire i).Expiring now due := by
  unfold Session.expire
  split
  · next hlive =>
    obtain ⟨entry, he⟩ := WorkingMemory.contains_iff.1 hlive
    refine ⟨(keeps_remove h.keeps he).congr fun j => ?_, fun {j d} hj hd => ?_⟩
    · rw [deadline?_remove he]
      by_cases hij : j = i <;> by_cases hdue : j ∈ due <;> simp [hij, hdue]
    · rw [deadline?_remove he] at hd
      split at hd
      · cases hd
      · next hij => exact h.undue (by simp [hij, hj]) hd
  · next hlive =>
    have hnone := deadline?_eq_none (contains_eq_false.1 (Bool.eq_false_iff.2 hlive))
    refine ⟨h.keeps.congr fun j => ?_, fun {j d} hj hd => ?_⟩
    · by_cases hij : j = i
      · subst hij
        simp [hnone]
      · simp [hij]
    · refine h.undue (fun hmem => ?_) hd
      rcases List.mem_cons.1 hmem with rfl | hmem
      · rw [hnone] at hd
        cases hd
      · exact hj hmem

theorem Expiring.expireEach {now : Moment} {due : List Handle} (h : s.Expiring now due) :
    (due.foldl Session.expire s).Expiring now [] := by
  induction due generalizing s with
  | nil => exact h
  | cons i rest ih => exact ih h.expire

/-- What is due has lost its deadline, and is to be let go. -/
theorem Punctual.expiring (h : s.Punctual) (now : Moment) :
    Expiring { s with expiry := s.expiry.takeDue now } now (s.expiry.due now) where
  keeps := h.takeDue now
  undue {j d} hj hd := by
    have hd : s.deadline? j = some d := hd
    exact Int.not_le.1 fun hle => hj (h.mem_due.2 ⟨d, hd, hle⟩)

/-- After a synchronisation the deadlines are those of the facts that are left, and none has come. -/
theorem Punctual.synchronize (h : s.Punctual) : s.synchronize.Punctual ∧ s.synchronize.Undue := by
  obtain ⟨t, ht⟩ : ∃ t, (s.expiry.due s.now).foldl Session.expire
    { s with expiry := s.expiry.takeDue s.now } = t := ⟨_, rfl⟩
  have hleft : t.Expiring s.now [] := ht ▸ (h.expiring s.now).expireEach
  have hdeadline : ∀ j, s.synchronize.deadline? j = t.deadline? j := fun j => by
    unfold Session.synchronize
    simp only [ht]
    exact deadline?_congr (onto_applyEvents _).base (by rw [store_applyEvents])
  have hnow : s.synchronize.now = s.now := congrArg Clock.now s.clock_synchronize
  refine ⟨?_, fun {j d} hd => ?_⟩
  · have hexpiry : s.synchronize.expiry = t.expiry := by
      unfold Session.synchronize
      simp only [ht, expiry_applyEvents]
    rw [Punctual, hexpiry]
    exact hleft.keeps.congr fun j => by simp [hdeadline]
  · rw [hnow]
    rw [hdeadline] at hd
    exact hleft.undue List.not_mem_nil hd

theorem Punctual.remove (h : s.Punctual) {i : Handle} {entry : Entry}
    (he : s.store.entry? i = some entry) : (s.remove i).2.Punctual :=
  (keeps_remove h he).congr fun j => deadline?_remove he j

/-- A checked fact comes, with the deadline that its type says. -/
theorem Punctual.receive (h : s.Punctual) (hs : s.Steady) {type : FactType} {fact : Fact}
    (hc : s.checkFact fact = .ok type) : (s.receive type fact).2.Punctual := by
  obtain ⟨store, hstore⟩ : ∃ store, s.store.insert fact (type.moment fact s.now) = store := ⟨_, rfl⟩
  have hentry : ∀ i, store.entry? i = if s.store.nextHandle = i then
      some ⟨fact, type.moment fact s.now, 0⟩ else s.store.entry? i := fun i => by
    rw [← hstore, WorkingMemory.entry?_insert]
  have hnew : s.deadline? s.store.nextHandle = none := by
    refine deadline?_eq_none (Option.eq_none_iff_forall_ne_some.2 fun entry he => ?_)
    exact Nat.lt_irrefl _ (hs.fresh he)
  have hbase := (onto_receive s type fact).base
  have hreceived : (s.receive type fact).2.store = store := by
    rw [receive_eq s type fact hstore, store_applyEvents]
  have hplan := ExpirySchedule.Keeps.plan h type (type.moment fact s.now) fun _ => hnew
  rw [Punctual, receive_eq s type fact hstore, expiry_applyEvents, ← receive_eq s type fact hstore]
  refine hplan.congr fun j => ?_
  by_cases hj : j = s.store.nextHandle
  · subst hj
    rw [if_pos rfl, deadline?_eq (by rw [hreceived, hentry, if_pos rfl])
      (by rw [hbase]; exact (checkFact_eq hc).1)]
  · rw [if_neg hj, deadline?_congr hbase (by rw [hreceived, hentry, if_neg (Ne.symm hj)])]

/-- A live fact gets another value of its type, and another deadline if its moment has changed. -/
theorem Punctual.exchange (h : s.Punctual) {type : FactType} {i : Handle} {entry : Entry}
    {fact : Fact} (he : s.store.entry? i = some entry) (ht : entry.fact.type = fact.type)
    (hc : s.checkFact fact = .ok type) : (s.exchange type i fact entry.moment).2.Punctual := by
  obtain ⟨store, hreplace, -, -, hentry⟩ :=
    WorkingMemory.replace?_live he ht (type.moment fact entry.moment)
  have htype : s.base.type? entry.fact.type = some type := ht ▸ (checkFact_eq hc).1
  have hold := deadline?_eq he htype
  have hbase := (onto_exchange s type i fact entry.moment).base
  have hexchanged : (s.exchange type i fact entry.moment).2.store = store := by
    rw [exchange_eq type hreplace, store_applyEvents]
  have hdeadline : ∀ j, (s.exchange type i fact entry.moment).2.deadline? j = if j = i then
      type.expiresAfter.map fun span => (type.moment fact entry.moment).later span.millis
      else s.deadline? j := fun j => by
    by_cases hj : j = i
    · subst hj
      rw [if_pos rfl, deadline?_eq (by rw [hexchanged, hentry, if_pos rfl])
        (by rw [hbase]; exact (checkFact_eq hc).1)]
    · rw [if_neg hj, deadline?_congr hbase (by rw [hexchanged, hentry, if_neg (Ne.symm hj)])]
  refine ExpirySchedule.Keeps.congr ?_ hdeadline
  rw [exchange_eq type hreplace, expiry_applyEvents]
  dsimp only
  split
  · next hsame =>
    refine ExpirySchedule.Keeps.congr h fun j => ?_
    split
    · next heq => rw [heq, hold, hsame]
    · rfl
  · exact ExpirySchedule.Keeps.plan h type _ fun hnone => by rw [hold, hnone]; rfl

/-! ## Runs -/

theorem Punctual.insert (h : s.Punctual) (hs : s.Steady) (W : s.network.WellFormed) (fact : Fact) :
    (s.insert fact).2.Punctual := by
  have hsync := h.synchronize.1
  unfold Session.insert
  dsimp only
  split
  · exact hsync
  · next type hc =>
    split
    · exact hsync
    · exact hsync.receive (hs.synchronize W).steady hc

theorem Punctual.update (h : s.Punctual) (i : Handle) (fact : Fact) :
    (s.update i fact).2.Punctual := by
  have hsync := h.synchronize.1
  unfold Session.update
  dsimp only
  split
  · exact hsync
  · next entry he =>
    split
    · exact hsync
    · next ht =>
      split
      · exact hsync
      · next type hc => exact hsync.exchange he (Decidable.of_not_not ht) hc

theorem Punctual.retract (h : s.Punctual) (i : Handle) : (s.retract i).2.Punctual := by
  have hsync := h.synchronize.1
  unfold Session.retract
  dsimp only
  split
  · next hlive =>
    obtain ⟨entry, he⟩ := WorkingMemory.contains_iff.1 hlive
    exact hsync.remove he
  · exact hsync

/-- Where rules, facts and deadlines are the same, the schedule keeps to the facts. -/
theorem Punctual.same (h : s.Punctual) (hb : t.base = s.base) (hs : t.store = s.store)
    (he : t.expiry = s.expiry) : t.Punctual := by
  rw [Punctual, he]
  exact ExpirySchedule.Keeps.congr h fun j => deadline?_congr hb (by rw [hs])

/-- A manual clock that is moved on leaves nothing overdue. -/
theorem Punctual.advance (h : s.Punctual) (span : Span) : (s.advance span).2.Punctual ∧
    (s.clock.isManual = true → (s.advance span).2.Undue) := by
  unfold Session.advance Clock.advance
  split
  · next e he =>
    refine ⟨h, fun hmanual => ?_⟩
    cases hclock : s.clock with
    | manual => simp [hclock] at he
    | realtime => simp [hclock, Clock.isManual] at hmanual
  · next clock _ =>
    have hmoved : Punctual { s with clock } := h.same rfl rfl rfl
    exact ⟨hmoved.synchronize.1, fun _ => hmoved.synchronize.2⟩

/-- Every step keeps the schedule to the facts. -/
theorem Step.punctual (hs : Step s t) (h : s.Punctual) (hsteady : s.Steady)
    (W : s.network.WellFormed) : t.Punctual := by
  rcases hs.cases_beside with ⟨c, rfl⟩ | rfl | hb
  · cases c with
    | insert fact => exact h.insert hsteady W fact
    | update i fact => exact h.update i fact
    | modify i change =>
      unfold Session.change Session.modify
      dsimp only
      split
      · exact h
      · exact h.update i _
    | retract i => exact h.retract i
    | advance span => exact (h.advance span).1
  · exact h.synchronize.1
  · exact h.same (hs.onward hsteady W).base hb.store hb.expiry

theorem punctual_start (base : RuleBase) (settings : Settings) (reading : Moment) :
    (start base settings reading).Punctual := by
  unfold start
  rw [Punctual, expiry_applyEvents]
  refine ExpirySchedule.keeps_empty.congr fun j => deadline?_eq_none ?_
  rw [store_applyEvents]
  exact Std.ExtTreeMap.getElem?_empty

/-- In every session the schedule keeps the deadlines of the live facts, and no others. -/
theorem Reached.punctual {base : RuleBase} {settings : Settings} (W : base.network.WellFormed)
    (h : Reached base settings s) : s.Punctual := by
  induction h with
  | start reading => exact punctual_start base settings reading
  | step hr hs ih =>
    obtain ⟨hsteady, hbase, -⟩ := hr.steady W
    exact hs.punctual ih hsteady (by rw [network, hbase]; exact W)

end Session

end RuleNet
