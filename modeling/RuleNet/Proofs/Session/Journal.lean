/-
  The journal of a session is faithful.

  One who has seen the facts and the waiting activations of a session at some time, and hears of its
  events from then on, knows its facts and its waiting activations at any later time. An activation is
  told to be created once, and told to be cancelled or to fire once.

  * `Stage.Step`, `Stage.Later`: how a session goes on, step by step and at all.
  * `Stage.Later.fireWithin`, `Stage.Later.serve`: cycles and requests are rows of steps.
  * `Stage.Chronicle`, `Stage.chronicle`: what one who follows the journal gets to know.
-/
import Mathlib.Logic.Relation
import RuleNet.Proofs.Session.Cycle
import RuleNet.Proofs.Session.Recounts

namespace RuleNet

namespace Stage

/-! ## Steps -/

/-- How a session goes on: by a change, by a request to the agenda or the clock, or where an action
    begins or ends. -/
inductive Step : Stage → Stage → Prop
  | change (s : Session) (r : Option Activation) (c : Session.Change) : Step ⟨s, r⟩ ⟨s.change c, r⟩
  | synchronize (s : Session) (r : Option Activation) : Step ⟨s, r⟩ ⟨s.synchronize, r⟩
  | setFocus (s : Session) (r : Option Activation) (group : String) :
    Step ⟨s, r⟩ ⟨s.setFocus group, r⟩
  | popFocus (s : Session) (r : Option Activation) : Step ⟨s, r⟩ ⟨s.popFocus.2, r⟩
  | clearGroup (s : Session) (r : Option Activation) (group : String) :
    Step ⟨s, r⟩ ⟨(s.clearGroup group).2, r⟩
  | unlock (s : Session) (r : Option Activation) : Step ⟨s, r⟩ ⟨s.unlock, r⟩
  | share (s : Session) (r : Option Activation) (globals : Entries Global) :
    Step ⟨s, r⟩ ⟨{ s with globals }, r⟩
  | halt (s : Session) (r : Option Activation) (halted : Bool) : Step ⟨s, r⟩ ⟨{ s with halted }, r⟩
  | read (s : Session) (r : Option Activation) (reading : Moment) (h : s.clock.isManual = false) :
    Step ⟨s, r⟩ ⟨{ s with clock := .realtime reading }, r⟩
  | begin (s : Session) (a : Activation) (agenda : Agenda) (h : s.agenda.popNext = some (a, agenda)) :
    Step ⟨s, none⟩
      ⟨{ ({ s with agenda } : Session).tell (.firing a) with firing := some a.rule }, some a⟩
  | finish (s : Session) (a : Activation) (firing : Option Nat) (event : JournalEvent)
    (h : event.ended? = some a) : Step ⟨s, some a⟩ ⟨({ s with firing } : Session).tell event, none⟩

/-- Steps lead from one stage to another. -/
abbrev Later : Stage → Stage → Prop := Relation.ReflTransGen Step

variable {x y : Stage}

/-- A step of a stage is one of its session. -/
theorem Step.session (h : Step x y) : x.session.Step y.session := by
  cases h with
  | change s r c => exact .change s c
  | synchronize s r => exact .synchronize s
  | setFocus s r group => exact .setFocus s group
  | popFocus s r => exact .popFocus s
  | clearGroup s r group => exact .clearGroup s group
  | unlock s r => exact .unlock s
  | share s r globals => exact .share s globals
  | halt s r halted => exact .halt s halted
  | read s r reading hr => exact .read s reading hr
  | begin s a agenda hp => exact .begin s a agenda hp
  | finish s a firing event => exact .finish s firing event

/-- Each step tells what it does. -/
theorem Step.tells (h : Step x y) (hs : x.session.Steady) (W : x.session.network.WellFormed) :
    ∃ events, x.Tells y events := by
  cases h with
  | change s r c => exact (Session.conveys_recounts r).change hs W c
  | synchronize s r => exact (Session.conveys_recounts r).synchronize hs W
  | setFocus s r group =>
    exact ⟨[], .quiet rfl rfl (s.agenda.get?_setFocus group) rfl (s.agenda.nextId_setFocus group)⟩
  | popFocus s r =>
    exact ⟨[], .quiet rfl rfl s.agenda.get?_popFocus rfl s.agenda.nextId_popFocus⟩
  | clearGroup s r group => exact s.recounts_clearGroup r hs.agenda group
  | unlock s r => exact ⟨[], .quiet rfl rfl rfl rfl rfl⟩
  | share s r globals => exact ⟨[], .quiet rfl rfl rfl rfl rfl⟩
  | halt s r halted => exact ⟨[], .quiet rfl rfl rfl rfl rfl⟩
  | read s r reading hr => exact ⟨[], .quiet rfl rfl rfl rfl rfl⟩
  | begin s a agenda hp =>
    obtain ⟨b, id, hb, rfl, D⟩ := Agenda.drops_popNext hs.agenda hp
    obtain rfl := (hs.agenda.fresh hb).1
    refine ⟨_, .one rfl ((Follower.hear_firing hb rfl).trans ?_) rfl D.nextId⟩
    rw [snapshot, snapshot]
    show _ = some (Follower.mk s.store.fact? agenda.get? _)
    rw [D.get?_eq hs.agenda hb]
    rfl
  | finish s a firing event hended =>
    have hhear : (Stage.mk s (some a)).snapshot.hear event =
        some { (Stage.mk s (some a)).snapshot with running := none } ∧ event.created? = none := by
      cases event <;> cases hended <;> exact ⟨if_pos rfl, rfl⟩
    exact ⟨_, .one rfl hhear.1 hhear.2 rfl⟩

/-! ## Cycles -/

namespace Later

variable {s t : Session}

/-- An action is a row of steps. -/
theorem perform (action : Action) {s : Session} {r : Option Activation} (h : Later x ⟨s, r⟩) :
    Later x ⟨(Session.perform action s).2, r⟩ := by
  have O : Session.Obeys fun s t => Later x ⟨s, r⟩ → Later x ⟨t, r⟩ := by
    refine ⟨fun _ => id, fun h h' => h' ∘ h, fun s c h => h.tail (.change s r c), ?_, ?_, ?_, ?_, ?_⟩
    · exact fun s group h => h.tail (.setFocus s r group)
    · exact fun s h => h.tail (.popFocus s r)
    · exact fun s group h => h.tail (.clearGroup s r group)
    · exact fun s h => h.tail (.halt s r true)
    · exact fun s globals h => h.tail (.share s r globals)
  exact O.perform action s h

/-- A firing begins, runs its action, and ends. -/
theorem fire {a : Activation} {agenda : Agenda} (hp : s.agenda.popNext = some (a, agenda)) :
    Later ⟨s, none⟩ ⟨(({ s with agenda } : Session).fire a).2, none⟩ := by
  have hbegun : Later ⟨s, none⟩
      ⟨{ ({ s with agenda } : Session).tell (.firing a) with firing := some a.rule }, some a⟩ :=
    .single (.begin s a agenda hp)
  have hrun := perform (({ s with agenda } : Session).actionOf a) hbegun
  unfold Session.fire
  dsimp only
  split
  · exact hrun.tail (.finish _ a _ _ rfl)
  · exact hrun.tail (.finish _ a _ _ rfl)

theorem shots {limit : Option Nat} {fired : Nat} {shots : List Shot}
    (h : Session.Shots limit fired s shots t) : Later ⟨s, none⟩ ⟨t, none⟩ := by
  induction h with
  | nil => exact .refl
  | cons _ hp _ ih => exact ((fire hp).trans ih).head (.synchronize _ none)

/-- A firing cycle is a row of steps. -/
theorem fireWithin (s : Session) (steps : Nat) (limit : Option Nat) :
    Later ⟨s, none⟩ ⟨(s.fireWithin steps limit).2, none⟩ := by
  obtain ⟨row, last, u, hshots, hending, ht⟩ := s.ending_fireWithin steps limit
  have hlast : Later ⟨s, none⟩ ⟨last, none⟩ :=
    ((shots hshots).head (.halt _ none false)).head (.synchronize s none)
  have hu : Later ⟨s, none⟩ ⟨u, none⟩ := by
    generalize (s.fireWithin steps limit).1 = outcome at hending
    cases hending with
    | idle => exact hlast.tail (.synchronize last none)
    | stopped => exact hlast
    | failed => exact hlast
    | unfinished => exact hlast
  rw [ht]
  exact (hu.tail (.unlock u none)).tail (.halt _ none false)

/-- What is asked of a mailbox is a row of steps. -/
theorem serve (s : Session) (request : Request) : Later ⟨s, none⟩ ⟨(s.serve request).2, none⟩ := by
  rcases s.serve_cases request with hs | ⟨c, hs⟩ | ⟨limit, hs⟩ | ⟨group, hs⟩ | hs
  · rw [hs]
  · exact hs ▸ .single (.change s none c)
  · exact hs ▸ fireWithin s Session.endless limit
  · exact hs ▸ .single (.setFocus s none group)
  · exact hs ▸ .single (.popFocus s none)

/-- All steps together tell what they do. -/
theorem tells {base : RuleBase} {settings : Settings} (W : base.network.WellFormed) (h : Later x y)
    (hx : Session.Reached base settings x.session) :
    Session.Reached base settings y.session ∧ ∃ events, x.Tells y events := by
  induction h with
  | refl => exact ⟨hx, [], .refl x⟩
  | @tail y z _ hstep ih =>
    obtain ⟨hy, events, htells⟩ := ih
    obtain ⟨hsteady, hbase, -⟩ := hy.steady W
    obtain ⟨events', htells'⟩ := hstep.tells hsteady (by rw [Session.network, hbase]; exact W)
    exact ⟨hy.step hstep.session, _, htells.trans htells'⟩

end Later

/-! ## What a follower gets to know -/

/-- What the events between two stages tell. -/
structure Chronicle (x y : Stage) (events : List JournalEvent) : Prop where
  /-- They are what the journal has got since. -/
  journal : y.session.journal.toList = x.session.journal.toList ++ events
  /-- They all fit, and replayed over what there was to see before they give what there is to see
      now. -/
  replay : x.snapshot.replay events = some y.snapshot
  /-- What waits is what waited and what was created, without what was cancelled or has fired. -/
  pending : ∀ id, id ∈ y.session.agenda.pending.map Activation.id ↔
    (id ∈ x.session.agenda.pending.map Activation.id ∨
      id ∈ events.filterMap JournalEvent.created?) ∧
    id ∉ events.filterMap JournalEvent.gone?
  /-- Nothing is created twice, nor under a number that was given before. -/
  created : (events.filterMap JournalEvent.created?).Nodup ∧
    ∀ id ∈ events.filterMap JournalEvent.created?, x.session.agenda.nextId ≤ id
  /-- Nothing is cancelled or fires twice, or both. -/
  gone : (events.filterMap JournalEvent.gone?).Nodup
  /-- What begins to fire ends, before anything else begins. -/
  fired : x.running.toList ++ events.filterMap JournalEvent.begun? =
    events.filterMap JournalEvent.ended? ++ y.running.toList

theorem Chronicle.eq_drop {s t : Session} {r r' : Option Activation} {events : List JournalEvent}
    (h : Chronicle ⟨s, r⟩ ⟨t, r'⟩ events) : events = t.journal.toList.drop s.journal.size := by
  have hjournal : t.journal.toList = s.journal.toList ++ events := h.journal
  rw [hjournal, ← Array.length_toList, List.drop_left]

theorem waits_snapshot (h : x.session.agenda.Consistent) (id : ActivationId) :
    x.snapshot.Waits id ↔ id ∈ x.session.agenda.pending.map Activation.id := by
  rw [List.mem_map]
  constructor
  · rintro ⟨a, ha⟩
    exact ⟨a, h.mem_pending.2 ⟨id, ha⟩, (h.fresh ha).1⟩
  · rintro ⟨a, ha, rfl⟩
    obtain ⟨id, hid⟩ := h.mem_pending.1 ha
    exact ⟨a, (h.fresh hid).1.symm ▸ hid⟩

/-- The journal is faithful: from any time on, whatever the session is asked and whatever its actions
    do, the events that are told lead a follower from the facts and the waiting activations of that time
    to those of any later time. -/
theorem chronicle {declarations : Declarations} {base : RuleBase} {settings : Settings}
    (hb : declarations.build = .ok base) {s t : Session} {r r' : Option Activation}
    (hs : Session.Reached base settings s) (h : Later ⟨s, r⟩ ⟨t, r'⟩) :
    ∃ events, Chronicle ⟨s, r⟩ ⟨t, r'⟩ events := by
  have W := Declarations.wellFormed_build hb
  obtain ⟨ht, events, T⟩ := h.tells W hs
  have hagenda : s.agenda.Consistent := (hs.steady W).1.agenda
  have hnew : ∀ id ∈ events.filterMap JournalEvent.created?, s.agenda.nextId ≤ id :=
    fun id hid => by
      rw [T.numbered] at hid
      exact (List.mem_range'_1.1 hid).1
  have D : (Stage.mk s r).snapshot.Distinct events := by
    refine ⟨T.numbered ▸ List.nodup_range', fun id hid => ?_⟩
    rintro ⟨a, ha⟩
    exact absurd (hagenda.fresh ha).2 (Nat.not_lt.2 (hnew id hid))
  refine ⟨events, T.journal, T.replay, fun id => ?_, ⟨D.nodup, hnew⟩, Follower.nodup_gone D T.replay,
    Follower.running_of_replay T.replay⟩
  rw [← waits_snapshot (ht.steady W).1.agenda, ← waits_snapshot hagenda]
  exact Follower.waits_of_replay D T.replay id

/-- Each order is answered by a receipt, which is kept for a while. -/
def orders : Declarations where
  types := [⟨"order", [("id", .integer)], .fact, none, none⟩,
    ⟨"receipt", [("at", .integer)], .event, some "at", some (.ofMillis 100)⟩]
  rules := [⟨"answer", 0, mainGroup, false, false, false, .pattern ⟨"order", none, [], [], none⟩,
    fun _ => .insert ⟨"receipt", [("at", .integer 0)]⟩ fun _ => .done⟩]
  queries := []

/-- One order waits. -/
def orderRun (base : RuleBase) : Session :=
  (Session.start base { Settings.standard with clock := .manual } 0).change
    (.insert ⟨"order", [("id", .integer 1)]⟩)

/-- Another order comes, the first one is withdrawn, and the second one is changed. -/
def ordersRun (base : RuleBase) : Session :=
  [.insert ⟨"order", [("id", .integer 2)]⟩, .retract 1, .update 2 ⟨"order", [("id", .integer 3)]⟩].foldl
    Session.change (orderRun base)

theorem Later.changes (cs : List Session.Change) (s : Session) (r : Option Activation) :
    Later ⟨s, r⟩ ⟨cs.foldl Session.change s, r⟩ := by
  induction cs generalizing s with
  | nil => exact .refl
  | cons c rest ih => exact (ih _).head (.change s r c)

/-- Two activations are created and three are gone, and in the end the receipt goes. -/
def tellsOrders (events : List JournalEvent) : Bool :=
  decide (events.filterMap JournalEvent.created? = [2, 3] ∧
    events.filterMap JournalEvent.gone? = [1, 2, 3] ∧
    events.getLast? = some (.retracted 3 ⟨"receipt", [("at", .integer 0)]⟩))

/-- One who has seen the first order hears of two more activations. The first and the second one are
    cancelled, the third one fires, and its receipt goes with time. -/
theorem chronicle_ordersRun : ∃ base t, orders.build = .ok base ∧
    Session.Reached base { Settings.standard with clock := .manual } (orderRun base) ∧
    Later ⟨orderRun base, none⟩ ⟨t, none⟩ ∧ ∃ events,
      Chronicle ⟨orderRun base, none⟩ ⟨t, none⟩ events ∧
      events.filterMap JournalEvent.created? = [2, 3] ∧
      events.filterMap JournalEvent.gone? = [1, 2, 3] ∧
      events.getLast? = some (.retracted 3 ⟨"receipt", [("at", .integer 0)]⟩) := by
  obtain ⟨base, hb, hrun⟩ := Declarations.build_of_passes orders (fun base =>
    (ordersRun base).firesListed 3 none fun _ t =>
      tellsOrders ((t.change (.advance (.ofMillis 100))).journal.toList.drop
        (orderRun base).journal.size)) (by decide +kernel)
  obtain ⟨outcome, t, hfire, hpasses⟩ := Session.fireWithin_of_firesListed hrun
  obtain ⟨hcreated, hgone, hlast⟩ := of_decide_eq_true hpasses
  have hx : Session.Reached base { Settings.standard with clock := .manual } (orderRun base) :=
    (Session.Reached.start 0).change _
  have hcycle := Later.fireWithin (ordersRun base) 3 none
  rw [hfire] at hcycle
  have hlater : Later ⟨orderRun base, none⟩ ⟨t.change (.advance (.ofMillis 100)), none⟩ :=
    ((Later.changes _ (orderRun base) none).trans hcycle).tail (.change t none _)
  obtain ⟨events, hevents⟩ := chronicle hb hx hlater
  rw [← hevents.eq_drop] at hcreated hgone hlast
  exact ⟨base, _, hb, hx, hlater, events, hevents, hcreated, hgone, hlast⟩

end Stage

end RuleNet
