/-
  One who follows the journal of a session.

  A follower starts with what it sees of a session, and from then on hears of events only. An event that
  does not fit what it knows makes no sense to it.

  * `Follower.hear`, `Follower.replay`: what a follower knows after an event, and after many.
  * `Follower.waits_of_replay`: what waits is what waited and what was created, without what has gone.
  * `Follower.nodup_gone`: nothing goes twice, if nothing is created twice.
  * `Follower.stays_or_goes`: what waits goes on waiting until it goes.
  * `Follower.running_of_replay`: what has begun to fire ends before anything else begins.
-/
import RuleNet.Session.Basic

namespace RuleNet

/-! ## Events -/

namespace JournalEvent

/-- The activation that has come to be. -/
def created? : JournalEvent → Option ActivationId
  | created a => some a.id
  | _ => none

/-- The activation that does not wait any more: it is cancelled, or it fires. -/
def gone? : JournalEvent → Option ActivationId
  | cancelled a => some a.id
  | firing a => some a.id
  | _ => none

/-- The activation whose action begins. -/
def begun? : JournalEvent → Option Activation
  | firing a => some a
  | _ => none

/-- The activation whose action has ended. -/
def ended? : JournalEvent → Option Activation
  | fired a => some a
  | failed a _ => some a
  | _ => none

end JournalEvent

/-- What one who follows a journal knows of the session. -/
structure Follower where
  fact? : Handle → Option Fact
  waiting? : ActivationId → Option Activation
  /-- The activation whose action is running. -/
  running : Option Activation

namespace Follower

/-- A fact has this value now, or is no more. -/
def setFact (f : Follower) (h : Handle) (fact : Option Fact) : Follower :=
  { f with fact? := fun i => if i = h then fact else f.fact? i }

/-- An activation waits now, or does so no more. -/
def setWaiting (f : Follower) (id : ActivationId) (a : Option Activation) : Follower :=
  { f with waiting? := fun i => if i = id then a else f.waiting? i }

/-- What is known after an event, if the event fits what was known. -/
def hear (f : Follower) : JournalEvent → Option Follower
  | .inserted h fact => if f.fact? h = none then some (f.setFact h (some fact)) else none
  | .updated h previous current =>
    if f.fact? h = some previous then some (f.setFact h (some current)) else none
  | .retracted h fact => if f.fact? h = some fact then some (f.setFact h none) else none
  | .created a => if f.waiting? a.id = none then some (f.setWaiting a.id (some a)) else none
  | .cancelled a =>
    if (f.waiting? a.id).map ({ · with state := .cancelled }) = some a then
      some (f.setWaiting a.id none)
    else none
  | .firing a =>
    if f.running = none ∧ (f.waiting? a.id).map ({ · with state := .fired }) = some a then
      some { f.setWaiting a.id none with running := some a }
    else none
  | .fired a => if f.running = some a then some { f with running := none } else none
  | .failed a _ => if f.running = some a then some { f with running := none } else none

/-- What is known after events, if they all fit. -/
def replay (f : Follower) : List JournalEvent → Option Follower
  | [] => some f
  | event :: rest => (f.hear event).bind fun f => f.replay rest

theorem replay_append (f : Follower) (events events' : List JournalEvent) :
    f.replay (events ++ events') = (f.replay events).bind fun f => f.replay events' := by
  induction events generalizing f with
  | nil => rfl
  | cons event rest ih =>
    rw [List.cons_append, replay, replay, Option.bind_assoc]
    exact congrArg _ (funext ih)

variable {f f' : Follower} {event : JournalEvent} {events : List JournalEvent}

theorem hear_created {a : Activation} (h : f.waiting? a.id = none) :
    f.hear (.created a) = some (f.setWaiting a.id (some a)) := if_pos h

/-- An activation that waits is cancelled. -/
theorem hear_cancelled {a : Activation} (h : f.waiting? a.id = some a) :
    f.hear (.cancelled { a with state := .cancelled }) = some (f.setWaiting a.id none) :=
  if_pos (by rw [h]; rfl)

/-- An activation that waits begins to fire. -/
theorem hear_firing {a : Activation} (h : f.waiting? a.id = some a) (hidle : f.running = none) :
    f.hear (.firing { a with state := .fired }) =
      some { f.setWaiting a.id none with running := some { a with state := .fired } } :=
  if_pos ⟨hidle, by rw [h]; rfl⟩

/-! ## What waits -/

/-- An activation of this number waits. -/
def Waits (f : Follower) (id : ActivationId) : Prop := ∃ a, f.waiting? id = some a

theorem waits_setWaiting_none (id i : ActivationId) :
    (f.setWaiting id none).Waits i ↔ f.Waits i ∧ i ≠ id := by
  unfold Waits setWaiting
  by_cases hi : i = id <;> simp [hi]

theorem waits_setWaiting_some (id i : ActivationId) (a : Activation) :
    (f.setWaiting id (some a)).Waits i ↔ f.Waits i ∨ i = id := by
  unfold Waits setWaiting
  by_cases hi : i = id <;> simp [hi]

/-- What an event does to the numbers that wait: one comes, one goes, or none does. -/
theorem waits_hear (h : f.hear event = some f') :
    (∃ id, event.created? = some id ∧ event.gone? = none ∧ ¬ f.Waits id ∧
      ∀ i, f'.Waits i ↔ f.Waits i ∨ i = id) ∨
    (∃ id, event.gone? = some id ∧ event.created? = none ∧ f.Waits id ∧
      ∀ i, f'.Waits i ↔ f.Waits i ∧ i ≠ id) ∨
    (event.created? = none ∧ event.gone? = none ∧ ∀ i, f'.Waits i ↔ f.Waits i) := by
  cases event <;> obtain ⟨hfits, heq⟩ := Option.ite_none_right_eq_some.1 h <;> cases heq
  case created a =>
    refine .inl ⟨a.id, rfl, rfl, ?_, fun i => waits_setWaiting_some a.id i a⟩
    rintro ⟨b, hb⟩
    rw [hfits] at hb
    cases hb
  case cancelled a =>
    obtain ⟨b, hb, -⟩ := Option.map_eq_some_iff.1 hfits
    exact .inr (.inl ⟨a.id, rfl, rfl, ⟨b, hb⟩, waits_setWaiting_none a.id⟩)
  case firing a =>
    obtain ⟨b, hb, -⟩ := Option.map_eq_some_iff.1 hfits.2
    exact .inr (.inl ⟨a.id, rfl, rfl, ⟨b, hb⟩, waits_setWaiting_none a.id⟩)
  all_goals exact .inr (.inr ⟨rfl, rfl, fun i => Iff.rfl⟩)

/-- Nothing is created that waits already, and nothing is created twice. -/
structure Distinct (f : Follower) (events : List JournalEvent) : Prop where
  nodup : (events.filterMap JournalEvent.created?).Nodup
  fresh : ∀ id ∈ events.filterMap JournalEvent.created?, ¬ f.Waits id

/-- So it is after the first event. -/
theorem Distinct.rest (D : f.Distinct (event :: events)) (h : f.hear event = some f') :
    f'.Distinct events := by
  obtain ⟨hnodup, hfresh⟩ := D
  rcases waits_hear h with ⟨id, hid, -, -, hwaits⟩ | ⟨id, -, hnone, -, hwaits⟩ | ⟨hnone, -, hwaits⟩
  · rw [List.filterMap_cons_some hid] at hnodup hfresh
    obtain ⟨hno, hrest⟩ := List.nodup_cons.1 hnodup
    refine ⟨hrest, fun i hi hw => ?_⟩
    rcases (hwaits i).1 hw with hold | rfl
    · exact hfresh i (List.mem_cons_of_mem _ hi) hold
    · exact hno hi
  · rw [List.filterMap_cons_none hnone] at hnodup hfresh
    exact ⟨hnodup, fun i hi hw => hfresh i hi ((hwaits i).1 hw).1⟩
  · rw [List.filterMap_cons_none hnone] at hnodup hfresh
    exact ⟨hnodup, fun i hi hw => hfresh i hi ((hwaits i).1 hw)⟩

/-- What waits is what waited and what was created, without what has gone. -/
theorem waits_of_replay (D : f.Distinct events) (h : f.replay events = some f') (id : ActivationId) :
    f'.Waits id ↔ (f.Waits id ∨ id ∈ events.filterMap JournalEvent.created?) ∧
      id ∉ events.filterMap JournalEvent.gone? := by
  induction events generalizing f with
  | nil =>
    cases h
    simp
  | cons event rest ih =>
    obtain ⟨g, hg, hrest⟩ := Option.bind_eq_some_iff.1 h
    rw [ih (D.rest hg) hrest]
    rcases waits_hear hg with ⟨i, hi, hnone, -, hwaits⟩ | ⟨i, hi, hnone, hold, hwaits⟩ |
      ⟨hnone, hnone', hwaits⟩
    · rw [List.filterMap_cons_some hi, List.filterMap_cons_none hnone, hwaits, List.mem_cons,
        or_assoc]
    · -- what has just gone is not created again
      have hno : i ∉ rest.filterMap JournalEvent.created? := fun hmem =>
        D.fresh i (by rwa [List.filterMap_cons_none hnone]) hold
      rw [List.filterMap_cons_some hi, List.filterMap_cons_none hnone, hwaits, List.mem_cons, not_or]
      constructor
      · rintro ⟨⟨hw, hne⟩ | hmem, hstays⟩
        · exact ⟨.inl hw, hne, hstays⟩
        · exact ⟨.inr hmem, fun heq => hno (heq ▸ hmem), hstays⟩
      · rintro ⟨hw | hmem, hne, hstays⟩
        · exact ⟨.inl ⟨hw, hne⟩, hstays⟩
        · exact ⟨.inr hmem, hstays⟩
    · rw [List.filterMap_cons_none hnone, List.filterMap_cons_none hnone', hwaits]

/-- What goes has waited, or was created before. -/
theorem mem_of_gone (h : f.replay events = some f') {id : ActivationId}
    (hid : id ∈ events.filterMap JournalEvent.gone?) :
    f.Waits id ∨ id ∈ events.filterMap JournalEvent.created? := by
  induction events generalizing f with
  | nil => simp at hid
  | cons event rest ih =>
    obtain ⟨g, hg, hrest⟩ := Option.bind_eq_some_iff.1 h
    rcases waits_hear hg with ⟨i, hi, hnone, -, hwaits⟩ | ⟨i, hi, hnone, hold, hwaits⟩ |
      ⟨hnone, hnone', hwaits⟩
    · rw [List.filterMap_cons_none hnone] at hid
      rw [List.filterMap_cons_some hi, List.mem_cons, ← or_assoc, ← hwaits]
      exact ih hrest hid
    · rw [List.filterMap_cons_some hi, List.mem_cons] at hid
      rw [List.filterMap_cons_none hnone]
      rcases hid with rfl | hid
      · exact .inl hold
      · exact (ih hrest hid).imp_left fun hw => ((hwaits id).1 hw).1
    · rw [List.filterMap_cons_none hnone'] at hid
      rw [List.filterMap_cons_none hnone, ← hwaits]
      exact ih hrest hid

/-- Nothing goes twice, if nothing is created twice. -/
theorem nodup_gone (D : f.Distinct events) (h : f.replay events = some f') :
    (events.filterMap JournalEvent.gone?).Nodup := by
  induction events generalizing f with
  | nil => exact List.nodup_nil
  | cons event rest ih =>
    obtain ⟨g, hg, hrest⟩ := Option.bind_eq_some_iff.1 h
    have hnodup := ih (D.rest hg) hrest
    rcases waits_hear hg with ⟨i, hi, hnone, -, -⟩ | ⟨i, hi, hnone, hold, hwaits⟩ |
      ⟨hnone, hnone', -⟩
    · rwa [List.filterMap_cons_none hnone]
    · rw [List.filterMap_cons_some hi]
      refine List.nodup_cons.2 ⟨fun hagain => ?_, hnodup⟩
      rcases mem_of_gone hrest hagain with hw | hmem
      · exact ((hwaits i).1 hw).2 rfl
      · exact D.fresh i (by rwa [List.filterMap_cons_none hnone]) hold
    · rwa [List.filterMap_cons_none hnone']

/-- What waits goes on waiting, unless just that is told to be cancelled or to fire. -/
theorem stays_hear (h : f.hear event = some f') {a : Activation} (ha : f.waiting? a.id = some a) :
    f'.waiting? a.id = some a ∨ event = .cancelled { a with state := .cancelled } ∨
      event = .firing { a with state := .fired } := by
  have hother : ∀ {id b}, a.id ≠ id → (f.setWaiting id b).waiting? a.id = some a := fun hne =>
    (if_neg hne).trans ha
  cases event <;> obtain ⟨hfits, heq⟩ := Option.ite_none_right_eq_some.1 h <;> cases heq
  case created b =>
    exact .inl (hother fun heq => by rw [← heq, ha] at hfits; cases hfits)
  case cancelled b =>
    by_cases heq : a.id = b.id
    · rw [← heq, ha] at hfits
      cases hfits
      exact .inr (.inl rfl)
    · exact .inl (hother heq)
  case firing b =>
    by_cases heq : a.id = b.id
    · rw [← heq, ha] at hfits
      cases hfits.2
      exact .inr (.inr rfl)
    · exact .inl (hother heq)
  all_goals exact .inl ha

/-- What waits goes on waiting until it is told to be cancelled or to fire. -/
theorem stays_or_goes (h : f.replay events = some f') {a : Activation} (ha : f.waiting? a.id = some a) :
    f'.waiting? a.id = some a ∨ .cancelled { a with state := .cancelled } ∈ events ∨
      .firing { a with state := .fired } ∈ events := by
  induction events generalizing f with
  | nil => cases h; exact .inl ha
  | cons event rest ih =>
    obtain ⟨g, hg, hrest⟩ := Option.bind_eq_some_iff.1 h
    rcases stays_hear hg ha with hstays | rfl | rfl
    · exact (ih hrest hstays).imp_right
        (Or.imp (List.mem_cons_of_mem event) (List.mem_cons_of_mem event))
    · exact .inr (.inl List.mem_cons_self)
    · exact .inr (.inr List.mem_cons_self)

/-- What is created waits, until it is told to be cancelled or to fire. -/
theorem created_stays_or_goes {a : Activation} {before after : List JournalEvent}
    (h : f.replay (before ++ .created a :: after) = some f') :
    f'.waiting? a.id = some a ∨ .cancelled { a with state := .cancelled } ∈ after ∨
      .firing { a with state := .fired } ∈ after := by
  rw [replay_append] at h
  obtain ⟨g, -, hg⟩ := Option.bind_eq_some_iff.1 h
  obtain ⟨g', hg', hafter⟩ := Option.bind_eq_some_iff.1 hg
  obtain ⟨-, heq⟩ := Option.ite_none_right_eq_some.1 hg'
  cases heq
  exact stays_or_goes hafter (if_pos rfl)

/-! ## What runs -/

/-- An action begins where none runs, and what ends is what runs. -/
theorem running_hear (h : f.hear event = some f') : f.running.toList ++ event.begun?.toList =
    event.ended?.toList ++ f'.running.toList := by
  cases event <;> obtain ⟨hfits, heq⟩ := Option.ite_none_right_eq_some.1 h <;> cases heq
  case firing a =>
    show f.running.toList ++ [a] = [a]
    rw [hfits.1]
    rfl
  case fired a =>
    show f.running.toList ++ [] = [a]
    rw [hfits]
    rfl
  case failed a error =>
    show f.running.toList ++ [] = [a]
    rw [hfits]
    rfl
  all_goals exact List.append_nil _

/-- What has begun to fire ends, in the same order, and before anything else begins. -/
theorem running_of_replay (h : f.replay events = some f') :
    f.running.toList ++ events.filterMap JournalEvent.begun? =
      events.filterMap JournalEvent.ended? ++ f'.running.toList := by
  induction events generalizing f with
  | nil =>
    cases h
    exact List.append_nil _
  | cons event rest ih =>
    obtain ⟨g, hg, hrest⟩ := Option.bind_eq_some_iff.1 h
    have hcons : ∀ p : JournalEvent → Option Activation, (event :: rest).filterMap p =
        (p event).toList ++ rest.filterMap p := fun p => by
      rw [List.filterMap_cons]
      cases p event <;> rfl
    rw [hcons, hcons, ← List.append_assoc, running_hear hg, List.append_assoc, ih hrest,
      List.append_assoc]

end Follower

end RuleNet
