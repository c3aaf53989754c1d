/-
  Each match fires once.

  * `Follower.Knows`: what one who follows a journal knows of waiting activations it has heard.
  * `Session.Once`: no activation is created twice for a match, none fires twice, and none is created while
    another one waits for the same match.
  * `Session.stream_of_life`: so it is whatever a session is asked, for what is told of its matching is well
    formed.
-/
import RuleNet.Proofs.Session.Life
import RuleNet.Proofs.Session.Pending

namespace RuleNet

/-- What begins to fire does not wait any more. -/
theorem JournalEvent.sublist_begun (events : List JournalEvent) :
    ((events.filterMap begun?).map Activation.id).Sublist (events.filterMap gone?) := by
  induction events with
  | nil => exact .slnil
  | cons event rest ih =>
    cases event with
    | firing a => exact ih.cons_cons a.id
    | cancelled a => exact ih.cons a.id
    | _ => exact ih

namespace Follower

/-- Nothing is known yet. -/
def blank : Follower := ⟨fun _ => none, fun _ => none, none⟩

/-- What waits was heard of when it was created. -/
def Knows (heard : List JournalEvent) (f : Follower) : Prop :=
  ∀ id b, f.waiting? id = some b → b.id = id ∧ .created b ∈ heard

variable {heard events : List JournalEvent} {event : JournalEvent} {f f' : Follower}

theorem Knows.mono {heard' : List JournalEvent} (h : f.Knows heard)
    (hsub : ∀ e ∈ heard, e ∈ heard')
    (hsame : ∀ id b, f'.waiting? id = some b → f.waiting? id = some b) : f'.Knows heard' :=
  fun id b hb => (h id b (hsame id b hb)).imp_right (hsub _)

/-- So it is after an event. -/
theorem Knows.hear (h : f.Knows heard) (hf : f.hear event = some f') :
    f'.Knows (heard ++ [event]) := by
  have hold : ∀ e ∈ heard, e ∈ heard ++ [event] := fun _ => List.mem_append_left _
  have hdrop : ∀ id : ActivationId, (f.setWaiting id none).Knows (heard ++ [event]) := fun id =>
    h.mono hold fun i b hb => by
      unfold setWaiting at hb
      dsimp only at hb
      split at hb
      · cases hb
      · exact hb
  cases event <;> obtain ⟨-, heq⟩ := Option.ite_none_right_eq_some.1 hf <;> cases heq
  case created a =>
    intro i b hb
    unfold setWaiting at hb
    dsimp only at hb
    split at hb
    · next heq =>
      cases hb
      exact ⟨heq.symm, List.mem_append_right _ (List.mem_singleton_self _)⟩
    · exact (h i b hb).imp_right (hold _)
  case cancelled a => exact hdrop a.id
  case firing a => exact (hdrop a.id).mono (fun _ => id) fun _ _ => id
  all_goals exact h.mono hold fun _ _ => id

/-- So it is after many. -/
theorem Knows.replay (h : f.Knows heard) (hf : f.replay events = some f') :
    f'.Knows (heard ++ events) := by
  induction events generalizing f heard with
  | nil =>
    cases hf
    exact h.mono (fun _ => List.mem_append_left _) fun _ _ => id
  | cons event rest ih =>
    obtain ⟨g, hg, hrest⟩ := Option.bind_eq_some_iff.1 hf
    rw [← List.singleton_append, ← List.append_assoc]
    exact ih (h.hear hg) hrest

/-- What begins to fire was created for the same match. -/
theorem Knows.begun (h : f.Knows heard) (hf : f.replay events = some f') {a : Activation}
    (ha : .firing a ∈ events) :
    ∃ b, .created b ∈ heard ++ events ∧ b.id = a.id ∧ b.place = a.place := by
  obtain ⟨pre, post, rfl⟩ := List.append_of_mem ha
  rw [replay_append] at hf
  obtain ⟨g, hg, hrest⟩ := Option.bind_eq_some_iff.1 hf
  obtain ⟨_, hfits, -⟩ := Option.bind_eq_some_iff.1 hrest
  obtain ⟨⟨-, hb⟩, -⟩ := Option.ite_none_right_eq_some.1 hfits
  obtain ⟨b, hwaits, rfl⟩ := Option.map_eq_some_iff.1 hb
  refine ⟨b, ?_, rfl, rfl⟩
  rw [← List.append_assoc]
  exact List.mem_append_left _ (h.replay hg _ _ hwaits).2

end Follower

namespace Session

/-- Each match has one activation at most, which fires once at most. -/
structure Once (s : Session) : Prop where
  created : ((s.journal.toList.filterMap JournalEvent.newcomer?).map Activation.place).Nodup
  fired : ((s.journal.toList.filterMap JournalEvent.begun?).map Activation.place).Nodup
  pending : ∀ a ∈ s.agenda.pending, .created a ∈ s.journal.toList
  /-- When an activation is created none waits for the same match. -/
  alone : ∀ {pre a post}, s.journal.toList = pre ++ .created a :: post →
    ∃ f, Follower.blank.replay pre = some f ∧
      ∀ {id b}, f.waiting? id = some b → b.place ≠ a.place

/-- So it is whenever a journal tells of different matches only. -/
theorem once_of_tells {base : RuleBase} {settings : Settings} {reading : Moment} {s : Session}
    {r : Option Activation} {events : List JournalEvent}
    (T : Stage.Tells ⟨opening base settings reading, none⟩ ⟨s, r⟩ events) (hs : s.Steady)
    (hnodup : ((events.filterMap JournalEvent.newcomer?).map Activation.place).Nodup) : s.Once := by
  have hblank : (Stage.mk (opening base settings reading) none).snapshot = .blank := by
    have hfact : ∀ i, (opening base settings reading).store.fact? i = none := fun i => by
      show (WorkingMemory.entry? _ i).map _ = none
      exact congrArg _ Std.ExtTreeMap.getElem?_empty
    have hget : ∀ i, (opening base settings reading).agenda.get? i = none := fun i =>
      Std.ExtTreeMap.getElem?_empty
    rw [Stage.snapshot, Follower.blank, funext hfact, funext hget]
  have hknows : Follower.blank.Knows [] := fun _ _ hb => by cases hb
  have hreplay := T.replay
  rw [hblank] at hreplay
  have hjournal : s.journal.toList = events := T.journal
  have hcreated : ∀ {a b : Activation}, .created a ∈ events → .created b ∈ events →
      a.place = b.place → a = b := fun ha hb heq =>
    List.inj_on_of_nodup_map hnodup (List.mem_filterMap.2 ⟨_, ha, rfl⟩)
      (List.mem_filterMap.2 ⟨_, hb, rfl⟩) heq
  refine ⟨hjournal ▸ hnodup, ?_, fun a ha => ?_, fun {pre a post} heq => ?_⟩
  · have D : Follower.blank.Distinct events :=
      ⟨T.numbered ▸ List.nodup_range', fun _ _ hno => by obtain ⟨_, hno⟩ := hno; cases hno⟩
    have hids : ((events.filterMap JournalEvent.begun?).map Activation.id).Nodup := by
      exact (Follower.nodup_gone D hreplay).sublist (JournalEvent.sublist_begun events)
    have hfrom : ∀ a ∈ events.filterMap JournalEvent.begun?,
        ∃ b, .created b ∈ events ∧ b.id = a.id ∧ b.place = a.place := fun a ha => by
      obtain ⟨event, hevent, heq⟩ := List.mem_filterMap.1 ha
      cases event <;> cases heq
      exact hknows.begun hreplay hevent
    rw [hjournal]
    refine (List.Nodup.of_map _ hids).map_on fun a ha b hb heq => ?_
    obtain ⟨a', ha', hid, hplace⟩ := hfrom a ha
    obtain ⟨b', hb', hid', hplace'⟩ := hfrom b hb
    have hsame := hcreated ha' hb' (hplace.trans (heq.trans hplace'.symm))
    exact List.inj_on_of_nodup_map hids ha hb (hid.symm.trans ((congrArg _ hsame).trans hid'))
  · obtain ⟨id, hid⟩ := hs.agenda.mem_pending.1 ha
    rw [hjournal]
    exact (hknows.replay hreplay id a hid).2
  · rw [hjournal] at heq
    subst heq
    rw [Follower.replay_append] at hreplay
    obtain ⟨f, hf, -⟩ := Option.bind_eq_some_iff.1 hreplay
    refine ⟨f, hf, fun {id b} hb hsame => ?_⟩
    have hpre : .created b ∈ pre := (hknows.replay hf id b hb).2
    rw [List.filterMap_append, List.map_append] at hnodup
    refine (List.disjoint_of_nodup_append hnodup)
      (List.mem_map_of_mem (List.mem_filterMap.2 ⟨_, hpre, rfl⟩)) ?_
    rw [hsame]
    exact List.mem_cons_self

/-- From its start on a session tells all that it does. -/
theorem recounts_start {base : RuleBase} (W : base.network.WellFormed) (settings : Settings)
    (reading : Moment) :
    (opening base settings reading).Recounts none (start base settings reading) := by
  obtain ⟨k, -⟩ := @Kept.start base.network (.empty settings.identityMode) W _
    settings.updatePolicy.agree_refl
  have htaken : (opening base settings reading).Recounts none (opening base settings reading).taken :=
    ⟨[], .quiet rfl rfl rfl rfl rfl⟩
  exact htaken.trans ((follows_opening base settings reading).recounts none k.sound.told)

variable {declarations : Declarations} {base : RuleBase} {settings : Settings}

/-- What is told over the life of a matching is well formed, and tokens are numbered as they are made, each
    under a new number. So no activation is created twice for a match or while one waits for it, and none
    fires twice, whatever a session is asked and whatever its actions do. -/
theorem stream_of_life (hb : declarations.build = .ok base) :
    (∀ {mode l}, Life.Later base.network (.start base.network mode) l →
      l.Told base.network ∧
      (∀ {t token}, l.matching.tokens[t]? = some token → t < l.matching.nextToken) ∧
      (∀ {l'}, Life.Later base.network l l' → l.Follows l') ∧
      ∀ {l'}, Life.Step base.network l l' → ∃ m ts, Matching.Trail base.network l.matching ts m ∧
        ts = List.range' l.matching.nextToken ts.length ∧
        l'.matching = { m with events := l'.matching.events }) ∧
    ∀ {settings reading s r}, Stage.Later ⟨start base settings reading, none⟩ ⟨s, r⟩ →
      s.Once ∧ ∃ told,
        Life.Later base.network (.start base.network settings.identityMode) (s.life told) ∧
        ((s.journal.toList.filterMap JournalEvent.newcomer?).map Activation.place).Sublist
          (told.filterMap MatchEvent.formed?) := by
  have W := Declarations.wellFormed_build hb
  refine ⟨fun {mode l} h => ⟨Life.told_of_later W h, fun {t token} ht => ?_, Life.follows_of_later,
    fun {l'} hs => ?_⟩, fun {settings reading s r} h => ?_⟩
  · obtain ⟨_, -, k⟩ := (Life.right_of_later W h).kept
    exact k.sound.forest.lt_next (Matching.origin?_of_live ht)
  · obtain ⟨m, hc, hm, -⟩ := hs.course
    obtain ⟨ts, ht⟩ := Matching.Course.trail hc
    exact ⟨m, ts, ht, ht.numbered.1, hm⟩
  · obtain ⟨-, told, events, hlater, hjournal, hsub⟩ := Stage.life_of_later W h
    have hlife : Life.Later base.network (.start base.network settings.identityMode) (s.life told) :=
      hlater []
    have hnodup : (told.filterMap MatchEvent.formed?).Nodup := by
      have hall := (Life.formedOnce_of_later W hlife).once
      rw [List.filterMap_append] at hall
      exact hall.of_append_left
    obtain ⟨first, T⟩ := recounts_start W settings reading
    obtain ⟨hreached, rest, T'⟩ := h.tells W (.start reading)
    have hboth := T.trans T'
    have heq : s.journal.toList = events := hjournal
    have heq' : s.journal.toList = first ++ rest := hboth.journal
    refine ⟨once_of_tells hboth (hreached.steady W).1 ?_, told, hlife, heq ▸ hsub⟩
    rw [← heq', heq]
    exact hnodup.sublist hsub

/-- Whether three matches got an activation and the last one fired. -/
def firesLast (t : Session) : Bool :=
  decide ((t.journal.toList.filterMap JournalEvent.newcomer?).map Activation.place =
      [(0, 1), (0, 2), (0, 3)] ∧
    (t.journal.toList.filterMap JournalEvent.begun?).map Activation.place = [(0, 3)])

/-- Two orders come, the first one goes and the second one changes. Three matches got an activation, and the
    last one fires. -/
theorem stream_of_life_ordersRun : ∃ base t, Stage.orders.build = .ok base ∧
    Stage.Later ⟨start base { Settings.standard with clock := .manual } 0, none⟩ ⟨t, none⟩ ∧ t.Once ∧
    (t.journal.toList.filterMap JournalEvent.newcomer?).map Activation.place =
      [(0, 1), (0, 2), (0, 3)] ∧
    (t.journal.toList.filterMap JournalEvent.begun?).map Activation.place = [(0, 3)] ∧
    ∃ told, Life.Later base.network (.start base.network .identity) (t.life told) ∧
      (t.life told).Told base.network ∧ .formed 0 3 ∈ (t.life told).stream := by
  obtain ⟨base, hb, hrun⟩ := Declarations.build_of_passes Stage.orders (fun base =>
    (Stage.ordersRun base).firesListed 3 none fun _ t => t.firesLast) (by decide +kernel)
  obtain ⟨outcome, t, hfire, hpasses⟩ := fireWithin_of_firesListed hrun
  obtain ⟨hcreated, hfired⟩ := of_decide_eq_true hpasses
  have hcycle := Stage.Later.fireWithin (Stage.ordersRun base) 3 none
  rw [hfire] at hcycle
  have hlater : Stage.Later ⟨start base { Settings.standard with clock := .manual } 0, none⟩
      ⟨t, none⟩ :=
    ((Stage.Later.changes _ (Stage.orderRun base) none).head (.change _ none _)).trans hcycle
  obtain ⟨hlife, hsession⟩ := stream_of_life hb
  obtain ⟨honce, told, ht, hsub⟩ := hsession hlater
  have hformed : .formed 0 3 ∈ told := MatchEvent.mem_formed.1 (hsub.subset (hcreated ▸ by decide))
  exact ⟨base, t, hb, hlater, honce, hcreated, hfired, told, ht, (hlife ht).1,
    List.mem_append_left _ hformed⟩

end Session

end RuleNet
