/-
  How changes move the focus.

  A new activation of a rule that asks for it moves the focus to the rule's group, and nothing moves it
  back when the activation is cancelled again in the course of the same change.

  * `Session.Summons`: a session goes on without firing, and all that moves its focus are the new
    activations that it tells of.
  * `Session.conveys_summons`: so it is along every change.
  * `Session.focus_of_change`: where a change moves the focus to, something waits, unless the change has
    cancelled all of it.
  * `Session.calmRun_stranded`: a change that leaves the focus on a group in which nothing waits.
-/
import RuleNet.Proofs.Lock
import RuleNet.Proofs.Session.Changes
import RuleNet.Proofs.Session.Recounts
import RuleNet.Proofs.Session.Journal

namespace RuleNet

/-- The group that gets the focus where an event tells of a new activation whose rule asks for it. -/
def JournalEvent.summons? (base : RuleBase) : JournalEvent → Option String
  | .created a => (base.rules[a.rule]?).bind fun rule => if rule.autoFocus then some rule.group else none
  | _ => none

namespace Agenda

/-- The focus moves to one group after the other. -/
def setFocusAll (agenda : Agenda) (groups : List String) : Agenda := groups.foldl setFocus agenda

theorem stack_setFocusAll {agenda agenda' : Agenda} (h : agenda.stack = agenda'.stack)
    (groups : List String) : (agenda.setFocusAll groups).stack = (agenda'.setFocusAll groups).stack := by
  induction groups generalizing agenda agenda' with
  | nil => exact h
  | cons group rest ih =>
    refine ih ?_
    unfold setFocus
    rw [focus_congr h]
    split
    · exact h
    · exact congrArg (group :: ·) h

theorem setFocusAll_append (agenda : Agenda) (groups groups' : List String) :
    agenda.setFocusAll (groups ++ groups') = (agenda.setFocusAll groups).setFocusAll groups' :=
  List.foldl_append

/-- The focus is on the last of the groups. -/
theorem focus_setFocusAll_append (agenda : Agenda) (groups : List String) (group : String) :
    (agenda.setFocusAll (groups ++ [group])).focus = group := by
  rw [setFocusAll_append]
  show (Agenda.setFocus _ group).focus = group
  unfold setFocus
  split
  · next heq => exact heq
  · rfl

end Agenda

namespace Session

/-! ## What moves the focus -/

/-- A session goes on with events, none of which is a firing. The events tell of all that moves its
    focus, and each new activation is of the group of its rule. -/
structure Summons (s t : Session) (events : List JournalEvent) : Prop where
  base : t.base = s.base
  journal : t.journal.toList = s.journal.toList ++ events
  stack : t.agenda.stack =
    (s.agenda.setFocusAll (events.filterMap (JournalEvent.summons? s.base))).stack
  idle : ∀ a, .firing a ∉ events
  grouped : ∀ a, .created a ∈ events → ∃ rule, s.base.rules[a.rule]? = some rule ∧ a.group = rule.group

namespace Summons

variable {s t u : Session} {event : JournalEvent} {events events' : List JournalEvent}

/-- Nothing is told that has to do with the agenda. -/
theorem aside (hbase : t.base = s.base) (hjournal : t.journal.toList = s.journal.toList ++ events)
    (hstack : t.agenda.stack = s.agenda.stack)
    (hnone : ∀ event ∈ events, ∀ a, event ≠ .created a ∧ event ≠ .firing a) : s.Summons t events where
  base := hbase
  journal := hjournal
  stack := by
    have hgroups : events.filterMap (JournalEvent.summons? s.base) = [] := by
      refine List.filterMap_eq_nil_iff.2 fun event hevent => ?_
      cases event
      case created a => exact absurd rfl (hnone _ hevent a).1
      all_goals rfl
    rw [hgroups]
    exact hstack
  idle a ha := (hnone _ ha a).2 rfl
  grouped a ha := absurd rfl (hnone _ ha a).1

theorem refl (s : Session) : s.Summons s [] := aside rfl (List.append_nil _).symm rfl nofun

theorem trans (h : s.Summons t events) (h' : t.Summons u events') : s.Summons u (events ++ events') where
  base := h'.base.trans h.base
  journal := by rw [h'.journal, h.journal, List.append_assoc]
  stack := by
    rw [h'.stack, h.base, List.filterMap_append, Agenda.setFocusAll_append]
    exact Agenda.stack_setFocusAll h.stack _
  idle a ha := (List.mem_append.1 ha).elim (h.idle a) (h'.idle a)
  grouped a ha := by
    rcases List.mem_append.1 ha with ha | ha
    · exact h.grouped a ha
    · rw [← h.base]
      exact h'.grouped a ha

end Summons

variable {s s' : Session}

theorem summons_trans {t u : Session} (h : ∃ events, s.Summons t events)
    (h' : ∃ events, t.Summons u events) : ∃ events, s.Summons u events := by
  obtain ⟨events, h⟩ := h
  obtain ⟨events', h'⟩ := h'
  exact ⟨events ++ events', h.trans h'⟩

theorem summons_activate (s : Session) (τ : TerminalId) (t : TokenId) :
    ∃ events, s.Summons (s.activate τ t) events := by
  rcases s.activate_cases τ t with ⟨-, heq⟩ | ⟨terminal, rule, -, hrule, ⟨-, heq⟩ | ⟨-, heq⟩⟩ <;> rw [heq]
  · exact ⟨[], .refl s⟩
  · exact ⟨[], .aside rfl (List.append_nil _).symm rfl nofun⟩
  · refine ⟨[.created (s.candidate τ t terminal rule)], rfl, Array.toList_push, ?_, by simp, fun a ha => ?_⟩
    · have hgroups : [JournalEvent.created (s.candidate τ t terminal rule)].filterMap
          (JournalEvent.summons? s.base) = if rule.autoFocus then [rule.group] else [] := by
        have hplace : s.base.rules[(s.candidate τ t terminal rule).rule]? = some rule := hrule
        rw [List.filterMap_cons, JournalEvent.summons?, hplace, Option.bind_some]
        cases rule.autoFocus <;> rfl
      rw [hgroups]
      show (s.enlisted τ t terminal rule).stack = _
      unfold enlisted
      cases rule.autoFocus
      · rfl
      · have hstack : (s.agenda.create terminal.rule τ t rule.salience rule.group
            (s.matching.binding s.store terminal.scope t)).stack = s.agenda.stack := rfl
        exact Agenda.stack_setFocusAll hstack [rule.group]
    · cases List.mem_singleton.1 ha
      exact ⟨rule, hrule, rfl⟩

theorem summons_deactivate (hc : s.agenda.Consistent) (τ : TerminalId) (t : TokenId) :
    ∃ events, s.Summons (s.deactivate τ t) events := by
  obtain ⟨agenda, hcancel, ⟨heq, -⟩ | ⟨a, -, heq, -⟩⟩ := deactivate_cases hc τ t
  all_goals
    have hstack : agenda.stack = s.agenda.stack := by
      rw [← s.agenda.stack_cancel τ t, hcancel]
    rw [heq]
  · exact ⟨[], .aside rfl (List.append_nil _).symm hstack nofun⟩
  · exact ⟨[_], .aside rfl Array.toList_push hstack fun event hevent b => by
      cases List.mem_singleton.1 hevent
      exact ⟨nofun, nofun⟩⟩

/-- The agenda gets to know of matches that come and go. -/
theorem Follows.summons {told after : TerminalId → TokenId → Prop} {due : List MatchEvent}
    (h : s.Follows told) (hr : Replays told after due) :
    ∃ events, s.Summons (due.foldl applyEvent s) events :=
  h.along (R := fun s t => ∃ events, s.Summons t events) (fun s => ⟨[], .refl s⟩) summons_trans
    (fun τ t _ => summons_activate _ τ t) (fun τ t hc => summons_deactivate hc τ t) hr

/-- Along every change all that moves the focus are new activations. -/
theorem conveys_summons : Conveys fun s t => ∃ events, s.Summons t events := by
  refine conveys_alters (fun s => ⟨[], .refl s⟩) summons_trans
    (fun s clock expiry => ⟨[], .aside rfl (List.append_nil _).symm rfl nofun⟩) fun {s mid s'} h W ha => ?_
  obtain ⟨hbase, -, hagenda, -, told, hjournal, hnone⟩ := ha.aside
  have U := ha.unapplied h W
  have hnet : s'.network = s.network := by rw [network, hbase]
  have hr : Replays (s.matching.Stands s.network) (s'.matching.Stands s.network)
      s'.matching.events.toList := hnet ▸ U.kept.sound.told
  have htaken : s.Summons { s' with matching := { s'.matching with events := #[] } } told :=
    .aside hbase hjournal (by rw [hagenda]) hnone
  obtain ⟨events, hevents⟩ := (h.follows W U).summons hr
  exact ⟨_, htaken.trans hevents⟩

/-! ## Where the focus goes -/

variable {declarations : Declarations} {base : RuleBase} {settings : Settings}

/-- Where a focus goes that does not stay: to the group of the last new activation whose rule asks
    for it. -/
theorem Summons.last {t : Session} {events : List JournalEvent} (h : s.Summons t events)
    (hmoves : t.agenda.focus ≠ s.agenda.focus) :
    ∃ before a after rule, events = before ++ .created a :: after ∧
      s.base.rules[a.rule]? = some rule ∧ rule.autoFocus = true ∧ a.group = rule.group ∧
      a.group = t.agenda.focus ∧ after.filterMap (JournalEvent.summons? s.base) = [] := by
  rcases List.eq_nil_or_concat' (events.filterMap (JournalEvent.summons? s.base)) with
    hnil | ⟨groups, group, hlast⟩
  · have hstack := h.stack
    rw [hnil] at hstack
    exact absurd (Agenda.focus_congr hstack) hmoves
  · obtain ⟨before, late, rfl, hbefore, hlate⟩ := List.filterMap_eq_append_iff.1 hlast
    obtain ⟨skipped, event, after, rfl, hskipped, hgroup, hafter⟩ := List.filterMap_eq_cons_iff.1 hlate
    have hfocus : t.agenda.focus = group := by
      rw [Agenda.focus_congr h.stack, hlast]
      exact s.agenda.focus_setFocusAll_append groups group
    cases event <;> try cases hgroup
    case created a =>
      obtain ⟨rule, hrule, hif⟩ := Option.bind_eq_some_iff.1 hgroup
      obtain ⟨hauto, heq⟩ := Option.ite_none_right_eq_some.1 hif
      obtain ⟨rule', hrule', hgrouped⟩ := h.grouped a (by simp)
      cases hrule.symm.trans hrule'
      exact ⟨before ++ skipped, a, after, rule, by simp, hrule, hauto, hgrouped,
        by rw [hgrouped, hfocus]; exact Option.some.inj heq, hafter⟩

/-- A change that moves the focus moves it to the group of the last new activation whose rule asks for
    it; and something waits in this group, unless all of it that waited before or that the change has
    created was cancelled by the change. -/
theorem focus_of_change (hb : declarations.build = .ok base) (hs : Reached base settings s)
    (c : Change) : ∃ events, (s.change c).journal.toList = s.journal.toList ++ events ∧
      ((s.change c).agenda.focus ≠ s.agenda.focus →
        (∃ before a after rule, events = before ++ .created a :: after ∧
          base.rules[a.rule]? = some rule ∧ rule.autoFocus = true ∧ a.group = rule.group ∧
          a.group = (s.change c).agenda.focus ∧
          after.filterMap (JournalEvent.summons? base) = []) ∧
        ((∃ a ∈ (s.change c).agenda.pending, a.group = (s.change c).agenda.focus) ∨
          ∀ a, a.group = (s.change c).agenda.focus →
            a ∈ s.agenda.pending ∨ .created a ∈ events →
            .cancelled { a with state := .cancelled } ∈ events)) := by
  have W := Declarations.wellFormed_build hb
  obtain ⟨hsteady, hbase, -⟩ := hs.steady W
  obtain ⟨ht, -, -⟩ := (hs.change c).steady W
  obtain ⟨events, hsummons⟩ :=
    conveys_summons.change hsteady (by rw [network, hbase]; exact W) c
  obtain ⟨events', hchronicle⟩ := Stage.chronicle hb (r := none) hs (.single (.change s none c))
  have hsame : s.journal.toList ++ events' = s.journal.toList ++ events :=
    hchronicle.journal.symm.trans hsummons.journal
  obtain rfl := List.append_cancel_left hsame
  refine ⟨_, hsummons.journal, fun hmoves => ⟨hbase ▸ hsummons.last hmoves, ?_⟩⟩
  refine or_iff_not_imp_left.2 fun hnone a hgroup ha => ?_
  -- what waits at the end of the change would be of the group
  have hgoes : (s.change c).agenda.get? a.id ≠ some a := fun hget =>
    hnone ⟨a, ht.agenda.mem_pending.2 ⟨_, hget⟩, hgroup⟩
  rcases ha with ha | ha
  · obtain ⟨id, hid⟩ := hsteady.agenda.mem_pending.1 ha
    have hwaits : s.agenda.get? a.id = some a := (hsteady.agenda.fresh hid).1.symm ▸ hid
    rcases Follower.stays_or_goes hchronicle.replay hwaits with hstays | hcancelled | hfiring
    · exact absurd hstays hgoes
    · exact hcancelled
    · exact absurd hfiring (hsummons.idle _)
  · obtain ⟨before, after, rfl⟩ := List.append_of_mem ha
    rcases Follower.created_stays_or_goes hchronicle.replay with hstays | hcancelled | hfiring
    · exact absurd hstays hgoes
    · exact List.mem_append_right _ (List.mem_cons_of_mem _ hcancelled)
    · exact absurd (List.mem_append_right _ (List.mem_cons_of_mem _ hfiring)) (hsummons.idle _)

/-- Where there is no alarm, there is quiet, which comes to the fore. -/
def calms : Declarations where
  types := [⟨"alarm", [("level", .integer)], .fact, none, none⟩]
  rules := [⟨"quiet", 0, "calm", false, false, true,
    .absent (.pattern ⟨"alarm", none, [], [], none⟩), fun _ => .done⟩]
  queries := []

/-- An alarm has ended the quiet, and the focus has been moved back. -/
def calmRun (base : RuleBase) : Session :=
  ((start base { Settings.standard with clock := .manual } 0).change
    (.insert ⟨"alarm", [("level", .integer 1)]⟩)).popFocus.2

theorem reached_calmRun (base : RuleBase) :
    Reached base { Settings.standard with clock := .manual } (calmRun base) :=
  ((Reached.start 0).change _).step (.popFocus _)

/-- When the alarm goes, the focus moves to the quiet, which waits there. -/
theorem focus_of_change_calmRun : ∃ base a, calms.build = .ok base ∧
    Reached base { Settings.standard with clock := .manual } (calmRun base) ∧
    (calmRun base).agenda.focus = mainGroup ∧ ((calmRun base).change (.retract 1)).agenda.focus = "calm" ∧
    a ∈ ((calmRun base).change (.retract 1)).agenda.pending ∧ a.group = "calm" := by
  obtain ⟨base, hb, hrun⟩ := Declarations.build_of_passes calms (fun base =>
    let t := (calmRun base).change (.retract 1)
    decide ((calmRun base).agenda.focus = mainGroup) && decide (t.agenda.focus = "calm") &&
      decide ((t.journal.toList.drop (calmRun base).journal.size).filterMap JournalEvent.gone? = []))
    (by decide +kernel)
  simp only [Bool.and_eq_true, decide_eq_true_eq] at hrun
  obtain ⟨⟨hmain, hcalm⟩, hgone⟩ := hrun
  obtain ⟨events, hjournal, hmoved⟩ := focus_of_change hb (reached_calmRun base) (.retract 1)
  rw [hjournal, ← Array.length_toList, List.drop_left] at hgone
  rw [hmain, hcalm] at hmoved
  obtain ⟨⟨before, a, after, rule, rfl, -, -, -, hgroup, -⟩, ⟨b, hb', hwaits⟩ | hall⟩ :=
    hmoved (by decide)
  · exact ⟨base, b, hb, reached_calmRun base, hmain, hcalm, hb', hwaits⟩
  · have hcancelled := hall a hgroup (.inr (by simp))
    cases List.filterMap_eq_nil_iff.1 hgone _ hcancelled

/-- When the alarm changes, the quiet comes and goes at once, but the focus stays where nothing waits. -/
theorem calmRun_stranded : ∃ base c, calms.build = .ok base ∧
    Reached base { Settings.standard with clock := .manual } (calmRun base) ∧
    (calmRun base).firing = none ∧
    ((calmRun base).change c).agenda.focus ≠ (calmRun base).agenda.focus ∧
    ((calmRun base).change c).agenda.pending = [] := by
  obtain ⟨base, hb, hrun⟩ := Declarations.build_of_passes calms (fun base =>
    let t := (calmRun base).change (.update 1 ⟨"alarm", [("level", .integer 2)]⟩)
    decide ((calmRun base).firing = none) &&
      decide (t.agenda.focus ≠ (calmRun base).agenda.focus) && decide (t.agenda.pending = []))
    (by decide +kernel)
  simp only [Bool.and_eq_true, decide_eq_true_eq] at hrun
  obtain ⟨⟨hidle, hmoved⟩, hnone⟩ := hrun
  exact ⟨base, _, hb, reached_calmRun base, hidle, hmoved, hnone⟩

end Session

end RuleNet
