/-
  What a session tells of its steps.

  Every change of the facts and of the waiting activations is told where it is made, so one who follows
  the events knows of it.

  * `Stage`: a session with the activation whose action is running in it.
  * `Stage.Tells`: events by which a follower gets from one stage to another.
  * `Session.recounts_activate`, `Session.recounts_deactivate`, `Session.recounts_clearGroup`: how
    activations come and go.
  * `Session.conveys_recounts`: every change tells what it does.
  * `Session.candidate`: the activation that would be made of a match at a terminal.
  * `Session.activate_cases`, `Session.deactivate_cases`: what one event does to the agenda.
-/
import RuleNet.Proofs.Session.Changes
import RuleNet.Proofs.Session.Follower

namespace RuleNet

/-! ## Stages -/

/-- A session, and the activation whose action is running in it. -/
structure Stage where
  session : Session
  running : Option Activation

/-- What there is to see of a stage. -/
def Stage.snapshot (x : Stage) : Follower where
  fact? := x.session.store.fact?
  waiting? := x.session.agenda.get?
  running := x.running

/-- The journal goes on with events that lead a follower from what it saw of one stage to what there is
    to see of another. New activations are numbered one by one. -/
structure Stage.Tells (x y : Stage) (events : List JournalEvent) : Prop where
  journal : y.session.journal.toList = x.session.journal.toList ++ events
  replay : x.snapshot.replay events = some y.snapshot
  next : y.session.agenda.nextId =
    x.session.agenda.nextId + (events.filterMap JournalEvent.created?).length
  numbered : events.filterMap JournalEvent.created? = List.range' x.session.agenda.nextId
    (events.filterMap JournalEvent.created?).length

namespace Stage.Tells

variable {x y z : Stage} {event : JournalEvent} {events events' : List JournalEvent}

/-- Nothing changes that is told of. -/
theorem quiet (hjournal : y.session.journal = x.session.journal)
    (hstore : y.session.store.fact? = x.session.store.fact?)
    (hget : y.session.agenda.get? = x.session.agenda.get?) (hrunning : y.running = x.running)
    (hnext : y.session.agenda.nextId = x.session.agenda.nextId) : x.Tells y [] where
  journal := by rw [hjournal, List.append_nil]
  replay := by
    rw [Follower.replay, snapshot, snapshot, hstore, hget, hrunning]
  next := hnext
  numbered := rfl

theorem refl (x : Stage) : x.Tells x [] := quiet rfl rfl rfl rfl rfl

theorem trans (h : x.Tells y events) (h' : y.Tells z events') : x.Tells z (events ++ events') where
  journal := by rw [h'.journal, h.journal, List.append_assoc]
  replay := by
    rw [Follower.replay_append, h.replay]
    exact h'.replay
  next := by rw [h'.next, h.next, List.filterMap_append, List.length_append, Nat.add_assoc]
  numbered := by
    rw [List.filterMap_append, List.length_append, ← List.range'_append_1, ← h.numbered, ← h.next,
      ← h'.numbered]

/-- One event is told, by which nothing is created. -/
theorem one (hjournal : y.session.journal = x.session.journal.push event)
    (hhear : x.snapshot.hear event = some y.snapshot) (hcreated : event.created? = none)
    (hnext : y.session.agenda.nextId = x.session.agenda.nextId) : x.Tells y [event] where
  journal := by rw [hjournal, Array.toList_push]
  replay := by
    rw [Follower.replay, hhear]
    rfl
  next := by
    rw [List.filterMap_cons_none hcreated]
    exact hnext
  numbered := by
    rw [List.filterMap_cons_none hcreated]
    rfl

end Stage.Tells

/-! ## Agendas -/

namespace Agenda

theorem get?_strike (agenda : Agenda) (a : Activation) :
    (agenda.strike a).get? = fun i => if i = a.id then none else agenda.get? i := by
  funext i
  show (agenda.activations.erase a.id)[i]? = _
  rw [getElem?_erase_eq]
  simp only [eq_comm (a := i)]
  rfl

variable {agenda agenda' : Agenda}

/-- The activation of a token is struck off, if there is one. -/
theorem Consistent.cancel_cases (h : agenda.Consistent) {terminal token : Nat}
    {cancelled : Option Activation} (hc : agenda.cancel terminal token = (cancelled, agenda')) :
    (cancelled = none ∧ agenda'.get? = agenda.get? ∧ agenda'.nextId = agenda.nextId) ∨
    ∃ a, agenda.get? a.id = some a ∧ cancelled = some { a with state := .cancelled } ∧
      (agenda'.get? = fun i => if i = a.id then none else agenda.get? i) ∧
      agenda'.nextId = agenda.nextId := by
  unfold cancel at hc
  split at hc
  · cases hc
    exact .inl ⟨rfl, rfl, rfl⟩
  · next id _ =>
    cases ha : agenda.get? id with
    | none =>
      rw [ha] at hc
      cases hc
      exact .inl ⟨rfl, rfl, rfl⟩
    | some a =>
      rw [ha] at hc
      cases hc
      exact .inr ⟨a, (h.fresh ha).1.symm ▸ ha, rfl, agenda.get?_strike a, rfl⟩

/-- Without one activation all other numbers are as they were. -/
theorem Drops.get?_eq {a : Activation} (D : Drops agenda agenda' fun b => b = a)
    (h : agenda.Consistent) (ha : agenda.get? a.id = some a) :
    agenda'.get? = fun i => if i = a.id then none else agenda.get? i := by
  refine funext fun i => Option.ext fun b => D.get?.trans ?_
  by_cases hi : i = a.id
  · simp only [if_pos hi, reduceCtorEq, iff_false, not_and, not_not]
    rintro hb
    exact Option.some.inj (hb.symm.trans (hi ▸ ha))
  · simp only [if_neg hi]
    refine and_iff_left_of_imp fun hb heq => hi ?_
    rw [← heq, (h.fresh hb).1]

end Agenda

namespace Session

variable {s t : Session} {told after : TerminalId → TokenId → Prop} (r : Option Activation)

/-- A session tells how it becomes another one while the same action runs. -/
def Recounts (r : Option Activation) (s t : Session) : Prop :=
  ∃ events, Stage.Tells ⟨s, r⟩ ⟨t, r⟩ events

theorem Recounts.trans {u : Session} {r : Option Activation} (h : s.Recounts r t)
    (h' : t.Recounts r u) : s.Recounts r u := by
  obtain ⟨events, ht⟩ := h
  obtain ⟨events', ht'⟩ := h'
  exact ⟨events ++ events', ht.trans ht'⟩

/-! ## Activations -/

/-- A waiting activation is cancelled, and the session tells so. -/
theorem recounts_cancelled {a : Activation} (ha : s.agenda.get? a.id = some a)
    (hjournal : t.journal = s.journal.push (.cancelled { a with state := .cancelled }))
    (hstore : t.store = s.store)
    (hget : t.agenda.get? = fun i => if i = a.id then none else s.agenda.get? i)
    (hnext : t.agenda.nextId = s.agenda.nextId) : s.Recounts r t := by
  refine ⟨_, .one hjournal ((Follower.hear_cancelled ha).trans ?_) rfl hnext⟩
  rw [Stage.snapshot, Stage.snapshot, hstore, hget]
  rfl

/-- What is created has a number that none had before. -/
theorem recounts_created {a : Activation} (hc : s.agenda.Consistent) (ha : a.id = s.agenda.nextId)
    (hjournal : t.journal = s.journal.push (.created a)) (hstore : t.store = s.store)
    (hget : t.agenda.get? = fun i => if i = a.id then some a else s.agenda.get? i)
    (hnext : t.agenda.nextId = s.agenda.nextId + 1) : s.Recounts r t := by
  have hnew : s.agenda.get? a.id = none := Option.eq_none_iff_forall_ne_some.2 fun b hb =>
    Nat.lt_irrefl _ (ha ▸ (hc.fresh hb).2)
  refine ⟨[.created a], ?_, ?_, hnext, ?_⟩
  · show t.journal.toList = _
    rw [hjournal, Array.toList_push]
  · rw [Follower.replay, Follower.hear_created hnew]
    show some _ = some _
    rw [Stage.snapshot, Stage.snapshot, hstore, hget]
    rfl
  · show [a.id] = [s.agenda.nextId]
    rw [ha]

theorem recounts_activate (hc : s.agenda.Consistent) (τ : TerminalId) (t : TokenId) :
    s.Recounts r (s.activate τ t) := by
  unfold activate
  split
  · exact ⟨[], .refl _⟩
  · next terminal _ =>
    split
    · exact ⟨[], .refl _⟩
    · next rule _ =>
      split
      · exact ⟨[], .quiet rfl rfl rfl rfl rfl⟩
      · obtain ⟨agenda, hagenda⟩ : ∃ agenda, s.agenda.create terminal.rule τ t rule.salience
            rule.group (s.matching.binding s.store terminal.scope t) = agenda := ⟨_, rfl⟩
        obtain ⟨a, ha, hget⟩ : ∃ a : Activation, a.id = s.agenda.nextId ∧
            agenda.get? = fun i => if i = a.id then some a else s.agenda.get? i :=
          ⟨⟨s.agenda.nextId, terminal.rule, τ, t, rule.salience, rule.group, .pending,
            s.matching.binding s.store terminal.scope t,
            Agenda.rankOf s.agenda.strategy rule.salience s.agenda.nextId⟩, rfl, funext fun i => by
              rw [← hagenda, Agenda.get?_create]
              split
              · next heq => rw [heq]
              · rfl⟩
        have hfocus : ∀ b : Bool,
            (if b then agenda.setFocus rule.group else agenda).get? = agenda.get? ∧
            (if b then agenda.setFocus rule.group else agenda).nextId = s.agenda.nextId + 1 := by
          have hnext : agenda.nextId = s.agenda.nextId + 1 := hagenda ▸ rfl
          intro b
          cases b
          · exact ⟨rfl, hnext⟩
          · exact ⟨agenda.get?_setFocus _, (agenda.nextId_setFocus _).trans hnext⟩
        have hcreated : agenda.get? s.agenda.nextId = some a := by
          rw [hget, ha]
          exact if_pos rfl
        simp only [hagenda, hcreated]
        exact recounts_created r hc ha rfl rfl ((hfocus _).1.trans hget) (hfocus _).2

theorem recounts_deactivate (hc : s.agenda.Consistent) (τ : TerminalId) (t : TokenId) :
    s.Recounts r (s.deactivate τ t) := by
  unfold deactivate
  rcases hcancel : s.agenda.cancel τ t with ⟨cancelled, agenda⟩
  obtain ⟨rfl, hget, hnext⟩ | ⟨a, ha, rfl, hget, hnext⟩ := hc.cancel_cases hcancel
  · exact ⟨[], .quiet rfl rfl hget rfl hnext⟩
  · exact recounts_cancelled r ha rfl rfl hget hnext

/-- What holds along one event after the other holds along all of them. -/
theorem Follows.along {R : Session → Session → Prop} (hrefl : ∀ s, R s s)
    (htrans : ∀ {s t u}, R s t → R t u → R s u)
    (hactivate : ∀ {s : Session} τ t, s.agenda.Consistent → R s (s.activate τ t))
    (hdeactivate : ∀ {s : Session} τ t, s.agenda.Consistent → R s (s.deactivate τ t))
    {events : List MatchEvent} (h : s.Follows told) (hr : Replays told after events) :
    R s (events.foldl applyEvent s) := by
  induction events generalizing s told with
  | nil => exact hrefl s
  | cons event rest ih =>
    cases event with
    | formed τ t => exact htrans (hactivate τ t h.agenda) (ih (h.activate hr.1) hr.2)
    | broken τ t => exact htrans (hdeactivate τ t h.agenda) (ih h.deactivate hr.2)

/-- The agenda follows the events, and the session tells how. -/
theorem Follows.recounts {events : List MatchEvent} (h : s.Follows told)
    (hr : Replays told after events) : s.Recounts r (events.foldl applyEvent s) :=
  h.along (fun _ => ⟨[], .refl _⟩) .trans (fun τ t hc => recounts_activate r hc τ t)
    (fun τ t hc => recounts_deactivate r hc τ t) hr

/-! ## Changes -/

variable {s₀ : Session}

/-- A step has changed the matches, which the agenda gets to know and the session tells. -/
theorem Steady.recounts (h : s₀.Steady) (W : s₀.network.WellFormed) (U : Unapplied s₀ s)
    (hs : s₀.Recounts r s) : s₀.Recounts r s.applyEvents := by
  have hnet : s.network = s₀.network := by rw [network, U.base]
  have hr : Replays (s₀.matching.Stands s₀.network) (s.matching.Stands s.network)
      s.matching.events.toList := hnet ▸ U.kept.sound.told
  have htaken : s.Recounts r { s with matching := { s.matching with events := #[] } } :=
    ⟨[], .quiet rfl rfl rfl rfl rfl⟩
  exact (hs.trans htaken).trans ((h.follows W U).recounts r hr)

/-- A step has told what has become of a fact. -/
theorem recounts_fact {event : JournalEvent} {i : Handle} {fact : Option Fact}
    (hjournal : t.journal = s.journal.push event)
    (hhear : ∀ f : Follower, f.fact? = s.store.fact? → f.hear event = some (f.setFact i fact))
    (hcreated : event.created? = none)
    (hstore : t.store.fact? = fun j => if j = i then fact else s.store.fact? j)
    (hagenda : t.agenda = s.agenda) : s.Recounts r t := by
  refine ⟨_, .one hjournal ((hhear _ rfl).trans ?_) hcreated (congrArg _ hagenda)⟩
  rw [Stage.snapshot, Stage.snapshot, hstore, hagenda]
  rfl

/-- Every change tells what it does. -/
theorem conveys_recounts : Conveys (Recounts r) where
  refl s := ⟨[], .refl _⟩
  trans := Recounts.trans
  beside s clock expiry := ⟨[], .quiet rfl rfl rfl rfl rfl⟩
  windows {s} now h W := h.recounts r W (h.unapplied_windows W now) ⟨[], .quiet rfl rfl rfl rfl rfl⟩
  remove {s i entry} h W he := by
    obtain ⟨store, hremove, -, -, hentry⟩ := WorkingMemory.remove?_live he
    rw [remove_eq hremove]
    refine h.recounts r W (h.unapplied_remove W he hremove) ?_
    refine @recounts_fact _ _ r (.retracted i entry.fact) i none rfl (fun f hf => ?_) rfl
      (funext fun j => ?_) rfl
    · exact if_pos (by rw [hf, WorkingMemory.fact?_eq he])
    · show store.fact? j = _
      simp only [WorkingMemory.fact?, hentry, eq_comm (a := i)]
      split <;> rfl
  receive {s fact type} h W hc := by
    rw [receive_eq s type fact rfl]
    refine h.recounts r W (h.unapplied_receive W hc rfl) ?_
    refine @recounts_fact _ _ r (.inserted s.store.nextHandle fact) s.store.nextHandle (some fact) rfl
      (fun f hf => ?_) rfl (funext fun j => ?_) rfl
    · refine if_pos ?_
      rw [hf, WorkingMemory.fact?, Option.map_eq_none_iff]
      exact Option.eq_none_iff_forall_ne_some.2 fun entry he => Nat.lt_irrefl _ (h.fresh he)
    · show WorkingMemory.fact? (s.store.insert fact _) j = _
      simp only [WorkingMemory.fact?, WorkingMemory.entry?_insert, eq_comm (a := j)]
      split <;> rfl
  exchange {s i entry fact type} h W he ht hc := by
    obtain ⟨store, hreplace, -, -, hentry⟩ :=
      WorkingMemory.replace?_live he ht (type.moment fact entry.moment)
    rw [exchange_eq type hreplace]
    refine h.recounts r W (h.unapplied_exchange W he ht hc hreplace) ?_
    refine @recounts_fact _ _ r (.updated i entry.fact fact) i (some fact) rfl (fun f hf => ?_) rfl
      (funext fun j => ?_) rfl
    · exact if_pos (by rw [hf, WorkingMemory.fact?_eq he])
    · show store.fact? j = _
      simp only [WorkingMemory.fact?, hentry, eq_comm (a := i)]
      split <;> rfl

/-! ## Groups -/

/-- Activations are cancelled one after the other. -/
theorem recounts_cleared {cleared : List Activation} {agenda : Agenda}
    (hnodup : cleared.Pairwise (·.id ≠ ·.id))
    (hall : ∀ a ∈ cleared, agenda.get? a.id = some a) (s : Session) :
    Recounts r { s with agenda }
      ((cleared.map ({ · with state := .cancelled })).foldl (fun s a => s.tell (.cancelled a))
        { s with agenda := agenda.strikeAll cleared }) := by
  induction cleared generalizing agenda s with
  | nil => exact ⟨[], .refl _⟩
  | cons a rest ih =>
    obtain ⟨hno, hrest⟩ := List.pairwise_cons.1 hnodup
    have hget : ((agenda.strike a).countCancelled).get? =
        fun i => if i = a.id then none else agenda.get? i := agenda.get?_strike a
    have hfirst : Recounts r { s with agenda } (({ s with
        agenda := (agenda.strike a).countCancelled } : Session).tell
          (.cancelled { a with state := .cancelled })) :=
      recounts_cancelled r (hall a List.mem_cons_self) rfl rfl hget rfl
    refine hfirst.trans (ih hrest (fun b hb => ?_) (s.tell (.cancelled { a with state := .cancelled })))
    have hne : b.id ≠ a.id := (hno b hb).symm
    rw [hget]
    exact (if_neg hne).trans (hall b (List.mem_cons_of_mem a hb))

theorem recounts_clearGroup (hc : s.agenda.Consistent) (group : String) :
    s.Recounts r (s.clearGroup group).2 := by
  have hall : ∀ a ∈ (s.agenda.conflictSet group).values.filterMap s.agenda.get?,
      s.agenda.get? a.id = some a := fun a ha => (hc.mem_group.1 ha).1
  have hforgotten : s.Recounts r { s with
      agenda := { s.agenda with groups := s.agenda.groups.erase group } } :=
    ⟨[], .quiet rfl rfl rfl rfl rfl⟩
  exact hforgotten.trans
    (@recounts_cleared r _ { s.agenda with groups := s.agenda.groups.erase group }
      (hc.pairwise_group group) hall s)

end Session

end RuleNet

namespace RuleNet.Session

variable {s : Session} {τ : TerminalId} {t : TokenId} {terminal : Terminal} {rule : Rule}

/-- The activation that would be made of a match at a terminal of a rule. -/
def candidate (s : Session) (τ : TerminalId) (t : TokenId) (terminal : Terminal) (rule : Rule) :
    Activation where
  id := s.agenda.nextId
  rule := terminal.rule
  terminal := τ
  token := t
  salience := rule.salience
  group := rule.group
  state := .pending
  binding := s.matching.binding s.store terminal.scope t
  rank := Agenda.rankOf s.agenda.strategy rule.salience s.agenda.nextId

/-- The agenda with the activation of a match; its group gets the focus if the rule asks for it. -/
def enlisted (s : Session) (τ : TerminalId) (t : TokenId) (terminal : Terminal) (rule : Rule) :
    Agenda :=
  let agenda := s.agenda.create terminal.rule τ t rule.salience rule.group
    (s.matching.binding s.store terminal.scope t)
  if rule.autoFocus then agenda.setFocus rule.group else agenda

theorem get?_enlisted (s : Session) (τ : TerminalId) (t : TokenId) (terminal : Terminal)
    (rule : Rule) : (s.enlisted τ t terminal rule).get? = fun i =>
      if i = s.agenda.nextId then some (s.candidate τ t terminal rule) else s.agenda.get? i := by
  have hcreate : (s.agenda.create terminal.rule τ t rule.salience rule.group
      (s.matching.binding s.store terminal.scope t)).get? = fun i =>
        if i = s.agenda.nextId then some (s.candidate τ t terminal rule) else s.agenda.get? i := by
    funext i
    rw [Agenda.get?_create]
    split
    · next heq => rw [heq]; rfl
    · rfl
  unfold enlisted
  dsimp only
  split
  · rw [Agenda.get?_setFocus, hcreate]
  · exact hcreate

/-- A match that reaches a terminal is refused, or its activation is created. -/
theorem activate_eq (hτ : s.network.terminal? τ = some terminal)
    (hrule : s.base.rules[terminal.rule]? = some rule) (t : TokenId) :
    s.activate τ t = if s.isSuppressed terminal.rule rule then
        { s with agenda := s.agenda.recordSuppressed }
      else ({ s with agenda := s.enlisted τ t terminal rule } : Session).tell
        (.created (s.candidate τ t terminal rule)) := by
  have hcreated : (s.agenda.create terminal.rule τ t rule.salience rule.group
      (s.matching.binding s.store terminal.scope t)).get? s.agenda.nextId =
        some (s.candidate τ t terminal rule) := by
    rw [Agenda.get?_create, if_pos rfl]
    rfl
  unfold activate
  rw [hτ]
  dsimp only
  rw [hrule]
  dsimp only
  split
  · rfl
  · rw [hcreated]
    rfl

/-- A match that reaches a terminal of no rule leaves the session alone; one of a rule is refused, or its
    activation is created. -/
theorem activate_cases (s : Session) (τ : TerminalId) (t : TokenId) :
    ((∀ terminal, s.network.terminal? τ = some terminal → s.base.rules[terminal.rule]? = none) ∧
      s.activate τ t = s) ∨
    ∃ terminal rule, s.network.terminal? τ = some terminal ∧
      s.base.rules[terminal.rule]? = some rule ∧
      ((s.isSuppressed terminal.rule rule = true ∧
          s.activate τ t = { s with agenda := s.agenda.recordSuppressed }) ∨
        (s.isSuppressed terminal.rule rule = false ∧
          s.activate τ t = ({ s with agenda := s.enlisted τ t terminal rule } : Session).tell
            (.created (s.candidate τ t terminal rule)))) := by
  cases hτ : s.network.terminal? τ with
  | none =>
    refine .inl ⟨nofun, ?_⟩
    unfold activate
    rw [hτ]
  | some terminal =>
    cases hrule : s.base.rules[terminal.rule]? with
    | none =>
      refine .inl ⟨fun terminal' h => by cases h; exact hrule, ?_⟩
      unfold activate
      rw [hτ]
      dsimp only
      rw [hrule]
    | some rule =>
      refine .inr ⟨terminal, rule, rfl, hrule, ?_⟩
      rw [activate_eq hτ hrule]
      cases s.isSuppressed terminal.rule rule
      · exact .inr ⟨rfl, rfl⟩
      · exact .inl ⟨rfl, rfl⟩

/-- A match that leaves a terminal has its activation cancelled, if that waits. -/
theorem deactivate_cases (hc : s.agenda.Consistent) (τ : TerminalId) (t : TokenId) :
    ∃ agenda, s.agenda.cancel τ t = ((s.agenda.cancel τ t).1, agenda) ∧
      ((s.deactivate τ t = { s with agenda } ∧ agenda.get? = s.agenda.get?) ∨
      ∃ a, s.agenda.get? a.id = some a ∧
        s.deactivate τ t = ({ s with agenda } : Session).tell
          (.cancelled { a with state := .cancelled }) ∧
        agenda.get? = fun i => if i = a.id then none else s.agenda.get? i) := by
  refine ⟨(s.agenda.cancel τ t).2, rfl, ?_⟩
  unfold deactivate
  rcases hcancel : s.agenda.cancel τ t with ⟨cancelled, agenda⟩
  obtain ⟨rfl, hget, -⟩ | ⟨a, ha, rfl, hget, -⟩ := hc.cancel_cases hcancel
  · exact .inl ⟨rfl, hget⟩
  · exact .inr ⟨a, ha, rfl, hget⟩

end RuleNet.Session
