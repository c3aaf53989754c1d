/-
  Sessions lead the lives of their matchings.

  Whatever a session is asked, its matching goes on by calls that a life is made of, and the agenda gets to
  know all that is told. What the agenda creates is what has come to terminals, in the same order.

  * `Session.Leads`: the matching has gone on by calls, and activations were created of what was told.
  * `Session.conveys_leads`: so it is along every change.
  * `Session.life_of_reached`, `Stage.life_of_later`: so it is since the start.
  * `Session.consistent_of_life`: so the memories of a session's matching agree with each other at any time,
    and facts that are gone leave nothing behind.
-/
import RuleNet.Proofs.Matching.Consistent
import RuleNet.Proofs.Matching.Stream
import RuleNet.Proofs.Session.Changes
import RuleNet.Proofs.Session.Recounts
import RuleNet.Proofs.Session.Journal
import RuleNet.Proofs.Session.Pending

namespace RuleNet

/-- The terminal and the token of an activation. -/
def Activation.place (a : Activation) : TerminalId × TokenId := (a.terminal, a.token)

/-- The activation that has come to be. -/
def JournalEvent.newcomer? : JournalEvent → Option Activation
  | created a => some a
  | _ => none

namespace Session

variable {s s' s'' t : Session} {mid : Matching}

/-! ## The agenda -/

/-- An event creates nothing but the activation of what it tells of. -/
theorem told_applyEvent (s : Session) (event : MatchEvent) : ∃ told,
    (s.applyEvent event).journal.toList = s.journal.toList ++ told ∧
    ((told.filterMap JournalEvent.newcomer?).map Activation.place).Sublist
      ([event].filterMap MatchEvent.formed?) := by
  have hquiet : ∀ {s' : Session}, s'.journal = s.journal → ∃ told,
      s'.journal.toList = s.journal.toList ++ told ∧
      ((told.filterMap JournalEvent.newcomer?).map Activation.place).Sublist
        ([event].filterMap MatchEvent.formed?) :=
    fun heq => ⟨[], by rw [heq, List.append_nil], List.nil_sublist _⟩
  cases event with
  | formed τ t =>
    rcases s.activate_cases τ t with ⟨-, heq⟩ | ⟨terminal, rule, -, -, ⟨-, heq⟩ | ⟨-, heq⟩⟩
    · exact hquiet (congrArg Session.journal heq :)
    · exact hquiet (congrArg Session.journal heq :)
    · refine ⟨[.created (s.candidate τ t terminal rule)], ?_, .refl _⟩
      show (s.activate τ t).journal.toList = _
      rw [heq]
      exact Array.toList_push
  | broken τ t =>
    show ∃ told, (s.deactivate τ t).journal.toList = _ ∧ _
    unfold deactivate
    dsimp only
    split
    · exact ⟨_, Array.toList_push, List.nil_sublist _⟩
    · exact hquiet rfl

theorem told_foldl (events : List MatchEvent) (s : Session) : ∃ told,
    (events.foldl applyEvent s).journal.toList = s.journal.toList ++ told ∧
    ((told.filterMap JournalEvent.newcomer?).map Activation.place).Sublist
      (events.filterMap MatchEvent.formed?) := by
  induction events generalizing s with
  | nil => exact ⟨[], (List.append_nil _).symm, List.nil_sublist _⟩
  | cons event rest ih =>
    obtain ⟨told, hjournal, hsub⟩ := s.told_applyEvent event
    obtain ⟨told', hjournal', hsub'⟩ := ih (s.applyEvent event)
    refine ⟨told ++ told', ?_, ?_⟩
    · rw [List.foldl_cons, hjournal', hjournal, List.append_assoc]
    · rw [List.filterMap_append, List.map_append, ← List.singleton_append, List.filterMap_append]
      exact hsub.append hsub'

/-! ## Lives -/

/-- A session at rest, as a time of its matching's life. -/
def life (s : Session) (told : List MatchEvent) : Life := ⟨s.store, s.matching, none, told⟩

/-- The matching of a session has gone on by calls, and what was told of it has been taken. Activations
    were created of it, in order. -/
def Leads (s s' : Session) : Prop :=
  s'.base = s.base ∧ ∃ events told,
    (∀ before, Life.Later s.network (s.life before) (s'.life (before ++ events))) ∧
    s'.journal.toList = s.journal.toList ++ told ∧
    ((told.filterMap JournalEvent.newcomer?).map Activation.place).Sublist
      (events.filterMap MatchEvent.formed?)

/-- Nothing is asked of the matching, and nothing created. -/
theorem Leads.beside (hbase : s'.base = s.base) (hstore : s'.store = s.store)
    (hmatching : s'.matching = s.matching) {told : List JournalEvent}
    (hjournal : s'.journal.toList = s.journal.toList ++ told)
    (hnone : told.filterMap JournalEvent.newcomer? = []) : s.Leads s' := by
  refine ⟨hbase, [], told, fun before => ?_, hjournal, hnone ▸ List.nil_sublist _⟩
  rw [List.append_nil, life, life, hstore, hmatching]

theorem Leads.refl (s : Session) : s.Leads s := .beside rfl rfl rfl (List.append_nil _).symm rfl

theorem Leads.trans (h : s.Leads s') (h' : s'.Leads s'') : s.Leads s'' := by
  obtain ⟨hbase, events, told, hlater, hjournal, hsub⟩ := h
  obtain ⟨hbase', events', told', hlater', hjournal', hsub'⟩ := h'
  refine ⟨hbase'.trans hbase, events ++ events', told ++ told', fun before => ?_, ?_, ?_⟩
  · have hnet : s'.network = s.network := by rw [network, hbase]
    rw [← List.append_assoc]
    exact (hlater before).trans (hnet ▸ hlater' (before ++ events))
  · rw [hjournal', hjournal, List.append_assoc]
  · rw [List.filterMap_append, List.map_append, List.filterMap_append]
    exact hsub.append hsub'

/-- The agenda gets to know what is told. -/
theorem leads_applyEvents (hbase : s'.base = s.base)
    (hlater : ∀ before, Life.Later s.network (s.life before) (s'.life before))
    {told : List JournalEvent} (hjournal : s'.journal.toList = s.journal.toList ++ told)
    (hnone : told.filterMap JournalEvent.newcomer? = []) : s.Leads s'.applyEvents := by
  have A := aligned_applyEvents s'
  obtain ⟨told', hjournal', hsub⟩ := told_foldl s'.matching.events.toList
    { s' with matching := { s'.matching with events := #[] } }
  refine ⟨A.base.trans hbase, s'.matching.events.toList, told ++ told', fun before => ?_, ?_, ?_⟩
  · refine (hlater before).tail ?_
    show Life.Step _ _ ⟨s'.applyEvents.store, s'.applyEvents.matching, none, _⟩
    rw [A.store, A.matching]
    exact .take _
  · exact hjournal'.trans (by rw [hjournal, List.append_assoc])
  · rw [List.filterMap_append, hnone, List.nil_append]
    exact hsub

/-- Every alteration is a row of calls. -/
theorem Alters.later (h : s.Alters mid s') (before : List MatchEvent) :
    Life.Later s.network (s.life before) (s'.life before) := by
  cases h with
  | removed he hr => exact (Relation.ReflTransGen.single (.retract _ rfl he)).tail (.remove _ rfl hr)
  | windows now => exact .single (.expire _ now rfl)
  | received hc hs =>
    subst hs
    exact .single (.insert _ _ _ _ rfl)
  | @exchanged i entry fact type store he ht hc hr =>
    have hbegun : Life.Later s.network (s.life before) ⟨s.store, s.begun, none, before⟩ := by
      unfold begun
      split
      · exact .single (.beginUpdate _)
      · exact .refl
    have hgone := hbegun.tail (.retract _ rfl he)
    have hback := hgone.tail (.replace _ fact _ s.now rfl hr)
    show Life.Later s.network _ ⟨store, s.exchanged store i, none, before⟩
    unfold Session.exchanged
    dsimp only
    split
    · exact hback.tail (.endUpdate _ rfl)
    · exact hback

/-- Every change is a row of calls. -/
theorem conveys_leads : Conveys Leads :=
  conveys_alters Leads.refl Leads.trans
    (fun s clock expiry => .beside rfl rfl rfl (List.append_nil _).symm rfl)
    fun {s mid s'} hs W h => by
      obtain ⟨hbase, -, -, -, told, hjournal, haside⟩ := h.aside
      refine leads_applyEvents hbase h.later hjournal ?_
      refine List.filterMap_eq_nil_iff.2 fun event hevent => ?_
      cases event with
      | created a => exact absurd rfl (haside _ hevent a).1
      | _ => rfl

/-- So is the start. -/
theorem leads_start (base : RuleBase) (settings : Settings) (reading : Moment) :
    (opening base settings reading).Leads (start base settings reading) :=
  leads_applyEvents rfl (fun _ => .refl) (List.append_nil _).symm rfl

variable {base : RuleBase} {settings : Settings}

/-- The matching of a session leads a life, whatever the session is asked. -/
theorem life_of_reached (W : base.network.WellFormed) (h : Reached base settings s) :
    ∃ told, Life.Later base.network (.start base.network settings.identityMode) (s.life told) := by
  induction h with
  | start reading =>
    obtain ⟨-, events, -, hlater, -⟩ := leads_start base settings reading
    exact ⟨_, hlater []⟩
  | @step s s' hreached hs ih =>
    obtain ⟨told, hlater⟩ := ih
    obtain ⟨hsteady, hbase, -⟩ := hreached.steady W
    have hnet : s.network = base.network := by rw [network, hbase]
    have hgoes : s.Leads s' → ∃ told, Life.Later base.network
        (.start base.network settings.identityMode) (s'.life told) := fun hleads => by
      obtain ⟨-, events, -, hmore, -⟩ := hleads
      exact ⟨_, hlater.trans (hnet ▸ hmore told)⟩
    cases hs with
    | change c => exact hgoes (conveys_leads.change hsteady (hnet ▸ W) c)
    | synchronize => exact hgoes (conveys_leads.synchronize hsteady (hnet ▸ W))
    | clearGroup group =>
      refine ⟨told, ?_⟩
      rw [clearGroup_eq]
      exact hlater
    | _ => exact ⟨told, hlater⟩

end Session

namespace Stage

variable {x y : Stage} {base : RuleBase} {settings : Settings}

/-- A step of a session is a row of calls. -/
theorem Step.leads (h : Step x y) (hs : x.session.Steady) (W : x.session.network.WellFormed) :
    x.session.Leads y.session := by
  have hquiet : ∀ {s s' : Session}, s'.base = s.base → s'.store = s.store →
      s'.matching = s.matching → s'.journal = s.journal → s.Leads s' := fun h₁ h₂ h₃ h₄ =>
    @Session.Leads.beside _ _ h₁ h₂ h₃ [] (by rw [h₄, List.append_nil]) rfl
  cases h with
  | change s r c => exact Session.conveys_leads.change hs W c
  | synchronize s r => exact Session.conveys_leads.synchronize hs W
  | clearGroup s r group =>
    show s.Leads (s.clearGroup group).2
    rw [Session.clearGroup_eq]
    refine .beside rfl rfl rfl Array.toList_appendList ?_
    rw [List.filterMap_map]
    exact List.filterMap_eq_nil_iff.2 fun _ _ => rfl
  | begin s a agenda hp => exact .beside rfl rfl rfl Array.toList_push rfl
  | finish s a firing event hended =>
    refine .beside rfl rfl rfl Array.toList_push ?_
    cases event <;> first | rfl | cases hended
  | _ => exact hquiet rfl rfl rfl rfl

/-- Since the start a session has created activations of what was told in its matching's life. -/
theorem life_of_later (W : base.network.WellFormed) {reading : Moment}
    (h : Later ⟨Session.start base settings reading, none⟩ y) :
    (Session.opening base settings reading).Leads y.session := by
  have hreached : Session.Reached base settings y.session := (h.tells W (.start reading)).1
  induction h with
  | refl => exact Session.leads_start base settings reading
  | @tail y z hway hs ih =>
    have hy := (Later.tells W hway (.start reading)).1
    obtain ⟨hsteady, hbase, -⟩ := hy.steady W
    exact (ih hy).trans (hs.leads hsteady (by rw [Session.network, hbase]; exact W))

end Stage

/-! ## Memories that agree -/

/-- Where only the fact that has just left is in working memory, nothing is left of any fact. -/
theorem Life.Right.vacant {net : Network} {l : Life} (W : net.WellFormed) (R : l.Right net)
    (hgone : ∀ {h entry}, l.store.entry? h = some entry → l.leaving = some h) :
    l.matching.Vacant net := by
  obtain ⟨base, -, k⟩ := R.kept
  refine (k.consistent W).vacant fun a h hin => ?_
  obtain ⟨entry, he⟩ := R.live hin
  exact R.leaving (hgone he) a hin

namespace Session

variable {declarations : Declarations} {base : RuleBase}

/-- After every call that is made of a session's matching its memories agree with each other, and once all
    facts have left nothing is left of them. -/
theorem consistent_of_life (hb : declarations.build = .ok base) :
    (∀ {mode l}, Life.Later base.network (.start base.network mode) l →
      l.matching.Consistent base.network l.store ∧
      ((∀ {h entry}, l.store.entry? h = some entry → l.leaving = some h) →
        l.matching.Vacant base.network)) ∧
    ∀ {settings s}, Reached base settings s →
      ∃ told, Life.Later base.network (.start base.network settings.identityMode) (s.life told) := by
  have W := Declarations.wellFormed_build hb
  refine ⟨fun {mode l} h => ?_, life_of_reached W⟩
  have R := Life.right_of_later W h
  obtain ⟨_, -, k⟩ := R.kept
  exact ⟨k.consistent W, R.vacant W⟩

/-- A guard is off duty while no door is open, and on duty for each open door that no one watches. -/
def guards : Declarations where
  types := [⟨"door", [("id", .integer)], .fact, none, none⟩,
    ⟨"watch", [("door", .integer)], .fact, none, none⟩]
  rules := [
    ⟨"off", 0, mainGroup, false, false, false,
      .all [.absent (.pattern ⟨"door", none, [], [], none⟩),
        .accumulate ⟨⟨"watch", none, [], [], none⟩, .count, "n", none⟩], fun _ => .done⟩,
    ⟨"on", 0, mainGroup, false, false, false,
      .all [.pattern ⟨"door", some "d", [], [], none⟩,
        .absent (.pattern ⟨"watch", none, [.compare "door" .equal (.field "d" "id")], [], none⟩)],
      fun _ => .done⟩]
  queries := []

/-- A door is opened and watched, and then no one is there any more. -/
def guardsRun (base : RuleBase) : Session :=
  ((((start base { Settings.standard with clock := .manual } 0).change
    (.insert ⟨"door", [("id", .integer 1)]⟩)).change
    (.insert ⟨"watch", [("door", .integer 1)]⟩)).change (.retract 2)).change (.retract 1)

/-- When no one is there any more the guard is off duty, and that is all that is left: the root and two of
    the seven tokens that were made. -/
theorem consistent_of_life_guardsRun : ∃ base, guards.build = .ok base ∧
    Reached base { Settings.standard with clock := .manual } (guardsRun base) ∧
    (∃ told, Life.Later base.network (.start base.network .identity) ((guardsRun base).life told)) ∧
    (guardsRun base).matching.Consistent base.network (guardsRun base).store ∧
    (guardsRun base).matching.Vacant base.network ∧
    (guardsRun base).matching.tokenCount = 3 ∧ (guardsRun base).matching.nextToken = 8 := by
  obtain ⟨base, hb, hrun⟩ := Declarations.build_of_passes guards (fun base =>
    (guardsRun base).store.entries.isEmpty && decide ((guardsRun base).matching.tokenCount = 3 ∧
      (guardsRun base).matching.nextToken = 8)) (by decide +kernel)
  obtain ⟨hempty, hcounts⟩ := Bool.and_eq_true_iff.1 hrun
  have hs : Reached base { Settings.standard with clock := .manual } (guardsRun base) :=
    ((((Reached.start 0).change _).change _).change _).change _
  refine ⟨base, hb, ?_⟩
  generalize guardsRun base = s at hs hempty hcounts ⊢
  obtain ⟨hlife, hsession⟩ := consistent_of_life hb
  obtain ⟨told, hlater⟩ := hsession hs
  obtain ⟨hconsistent, hvacant⟩ := hlife hlater
  refine ⟨hs, ⟨told, hlater⟩, hconsistent, hvacant fun {h entry} he => ?_, of_decide_eq_true hcounts⟩
  change s.store.entries[h]? = some entry at he
  rw [Std.ExtTreeMap.isEmpty_iff.1 hempty, Std.ExtTreeMap.getElem?_empty] at he
  cases he

end Session

end RuleNet
