/-
  The sessions that requests lead to.

  * `Session.Change`, `Session.change`, `Session.changeAt`: the requests that change facts or move the
    clock, and such a request at a reading of the real time.
  * `Session.Step`: one request, the beginning or the end of a firing.
  * `Session.Obeys.clocked`: what holds along all that an action asks for holds along the action.
  * `Session.Reached`: a session that steps lead to from the start. Actions and whole firing cycles
    lead to no others (`Session.Reached.perform`, `Session.Reached.fireAll`).
  * `Session.Reached.steady`: all of them are steady.
-/
import RuleNet.Proofs.Session.Steps
import RuleNet.Session.Clocked

namespace RuleNet.Session

/-! ## Changes -/

/-- A request that changes facts or moves the clock. -/
inductive Change where
  | insert (fact : Fact)
  | update (h : Handle) (fact : Fact)
  | modify (h : Handle) (change : Fact → Fact)
  | retract (h : Handle)
  | advance (span : Span)

/-- The session after a change, whether or not it was accepted. -/
def change (s : Session) : Change → Session
  | .insert fact => (s.insert fact).2
  | .update h fact => (s.update h fact).2
  | .modify h change => (s.modify h change).2
  | .retract h => (s.retract h).2
  | .advance span => (s.advance span).2

/-- A session after a change at a reading of the real time. -/
def changeAt (s : Session) (c : Moment × Change) : Session := (s.read c.1).change c.2

variable {s s' : Session}

/-! ## Steps -/

/-- A session goes on by one step. A firing begins when the first waiting activation of the focused
    group is taken; what its action asks for are steps of their own, until it ends. -/
inductive Step : Session → Session → Prop
  | change (s : Session) (c : Change) : Step s (s.change c)
  | synchronize (s : Session) : Step s s.synchronize
  | setFocus (s : Session) (group : String) : Step s (s.setFocus group)
  | popFocus (s : Session) : Step s s.popFocus.2
  | clearGroup (s : Session) (group : String) : Step s (s.clearGroup group).2
  | unlock (s : Session) : Step s { s with agenda := s.agenda.unlock }
  | share (s : Session) (globals : Entries Global) : Step s { s with globals }
  | halt (s : Session) (halted : Bool) : Step s { s with halted }
  | begin (s : Session) (a : Activation) (agenda : Agenda) (h : s.agenda.popNext = some (a, agenda)) :
    Step s { ({ s with agenda } : Session).tell (.firing a) with firing := some a.rule }
  | finish (s : Session) (firing : Option Nat) (event : JournalEvent) :
    Step s (({ s with firing } : Session).tell event)
  | read (s : Session) (reading : Moment) (h : s.clock.isManual = false) :
    Step s { s with clock := .realtime reading }

/-- A session that steps lead to from the start. -/
inductive Reached (base : RuleBase) (settings : Settings) : Session → Prop
  | start (reading : Moment) : Reached base settings (start base settings reading)
  | step {s s' : Session} (h : Reached base settings s) (hs : Step s s') : Reached base settings s'

/-! ## What steps keep -/

theorem Steady.insert (h : s.Steady) (W : s.network.WellFormed) (fact : Fact) :
    s.Onward (s.insert fact).2 := by
  have hs := h.synchronize W
  unfold Session.insert
  dsimp only
  split
  · exact hs
  · next type hc =>
    split
    · exact hs
    · exact hs.trans (hs.steady.receive (hs.wellFormed W) hc)

theorem Steady.update (h : s.Steady) (W : s.network.WellFormed) (i : Handle) (fact : Fact) :
    s.Onward (s.update i fact).2 := by
  have hs := h.synchronize W
  unfold Session.update
  dsimp only
  split
  · exact hs
  · next entry he =>
    split
    · exact hs
    · next ht =>
      split
      · exact hs
      · next type hc =>
        exact hs.trans (hs.steady.exchange (hs.wellFormed W) he (Decidable.of_not_not ht) hc)

theorem Steady.retract (h : s.Steady) (W : s.network.WellFormed) (i : Handle) :
    s.Onward (s.retract i).2 := by
  have hs := h.synchronize W
  unfold Session.retract
  dsimp only
  split
  · next hlive =>
    obtain ⟨entry, he⟩ := WorkingMemory.contains_iff.1 hlive
    exact hs.trans (hs.steady.remove (hs.wellFormed W) he)
  · exact hs

theorem Steady.advance (h : s.Steady) (W : s.network.WellFormed) (span : Span) :
    s.Onward (s.advance span).2 := by
  unfold Session.advance
  split
  · exact h.refl
  · next clock _ =>
    have hc : s.Onward { s with clock } := h.same rfl rfl rfl rfl rfl
    exact hc.trans (hc.steady.synchronize (hc.wellFormed W))

/-- A change keeps a session steady. -/
theorem Steady.change (h : s.Steady) (W : s.network.WellFormed) (c : Change) :
    s.Onward (s.change c) := by
  cases c with
  | insert fact => exact h.insert W fact
  | update i fact => exact h.update W i fact
  | modify i change =>
    unfold Session.change Session.modify
    dsimp only
    split
    · exact h.refl
    · exact h.update W i _
  | retract i => exact h.retract W i
  | advance span => exact h.advance W span

/-- Activations of a group are cancelled, and the journal tells so. -/
theorem clearGroup_eq (s : Session) (group : String) : (s.clearGroup group).2 = { s with
    agenda := (s.agenda.clearGroup group).2
    journal := s.journal.appendList ((s.agenda.clearGroup group).1.map .cancelled) } := by
  have htell : ∀ (cleared : List Activation) (s : Session),
      cleared.foldl (fun s a => s.tell (.cancelled a)) s =
        { s with journal := s.journal.appendList (cleared.map .cancelled) } := by
    intro cleared
    induction cleared with
    | nil => exact fun _ => rfl
    | cons a rest ih => exact fun s => ih _
  exact htell _ _

theorem Steady.clearGroup (h : s.Steady) (group : String) : s.Onward (s.clearGroup group).2 := by
  have D := Agenda.drops_clearGroup h.agenda (rfl : s.agenda.clearGroup group = _)
  rw [clearGroup_eq]
  exact h.aside rfl rfl rfl rfl D.consistent fun hid => (D.get?.1 hid).1

/-- Every step keeps a session steady. -/
theorem Step.onward (hs : Step s s') (h : s.Steady) (W : s.network.WellFormed) : s.Onward s' := by
  cases hs with
  | change c => exact h.change W c
  | synchronize => exact h.synchronize W
  | setFocus group =>
    exact h.aside rfl rfl rfl rfl (h.agenda.setFocus group) fun hid =>
      s.agenda.get?_setFocus group ▸ hid
  | popFocus =>
    exact h.aside rfl rfl rfl rfl h.agenda.popFocus fun hid => s.agenda.get?_popFocus ▸ hid
  | clearGroup group => exact h.clearGroup group
  | unlock => exact h.aside rfl rfl rfl rfl (h.agenda.congr rfl rfl rfl rfl rfl) id
  | share globals => exact h.same rfl rfl rfl rfl rfl
  | halt halted => exact h.same rfl rfl rfl rfl rfl
  | begin a agenda hp =>
    obtain ⟨b, id, -, -, D⟩ := Agenda.drops_popNext h.agenda hp
    exact h.aside rfl rfl rfl rfl D.consistent fun hid => (D.get?.1 hid).1
  | finish firing event => exact h.same rfl rfl rfl rfl rfl
  | read reading hr => exact h.same rfl rfl rfl rfl rfl

/-- A session without facts, whose agenda does not know yet what holds without facts. -/
def opening (base : RuleBase) (settings : Settings) (reading : Moment) : Session where
  base := base
  settings := settings
  store := .empty settings.identityMode
  matching := Matching.start base.network (.empty settings.identityMode)
  agenda := .empty settings.conflictStrategy
  clock := .start settings reading
  expiry := .empty
  globals := []
  journal := #[]
  firing := none
  halted := false

/-- The events have been taken out of the matches. -/
def taken (s : Session) : Session := { s with matching := { s.matching with events := #[] } }

/-- Nothing waits there yet. -/
theorem follows_opening (base : RuleBase) (settings : Settings) (reading : Moment) :
    (opening base settings reading).taken.Follows fun _ _ => False := by
  have hnone : ∀ {id a}, (Agenda.empty settings.conflictStrategy).get? id ≠ some a := fun {id a} ha => by
    rw [Agenda.get?, Agenda.empty, Std.ExtTreeMap.getElem?_empty] at ha
    cases ha
  exact ⟨Agenda.consistent_empty _, fun ha => absurd ha hnone, fun ha => absurd ha hnone⟩

/-- A session without facts is steady. -/
theorem steady_start {base : RuleBase} (W : base.network.WellFormed) (settings : Settings)
    (reading : Moment) : (start base settings reading).Steady ∧
      (start base settings reading).base = base ∧
      (start base settings reading).settings = settings := by
  have hempty : ∀ {i entry},
      WorkingMemory.entry? (.empty settings.identityMode) i ≠ some entry := fun {i entry} hi => by
    have hnone : WorkingMemory.entry? (.empty settings.identityMode) i = none :=
      Std.ExtTreeMap.getElem?_empty
    rw [hnone] at hi
    cases hi
  obtain ⟨k, hd⟩ := @Kept.start base.network (.empty settings.identityMode) W _
    settings.updatePolicy.agree_refl
  obtain ⟨hb, hset, hsteady⟩ := @Follows.applyEvents (opening base settings reading) (fun _ _ => False)
    (follows_opening base settings reading) k hd (fun hi => absurd hi hempty)
    (fun hi => absurd hi hempty)
  exact ⟨hsteady, hb, hset⟩

/-! ## What actions ask for -/

/-- A relation of sessions that holds wherever one goes on as an action may ask for. -/
structure Obeys (R : Session → Session → Prop) : Prop where
  refl : ∀ s, R s s
  trans : ∀ {s t u}, R s t → R t u → R s u
  change : ∀ s c, R s (s.change c)
  setFocus : ∀ (s : Session) group, R s (s.setFocus group)
  popFocus : ∀ s, R s s.popFocus.2
  clearGroup : ∀ s group, R s (s.clearGroup group).2
  halt : ∀ s, R s { s with halted := true }
  share : ∀ s globals, R s { s with globals }

/-- So it holds along the whole action, and also while the clock runs if it holds along the readings. -/
theorem Obeys.clocked {R : Session → Session → Prop} (O : Obeys R) (action : Action) (c : Clocked)
    (hread : ∀ reading ∈ c.readings, ∀ s, R s (s.read reading)) :
    R c.session (Clocked.perform action c).2.session := by
  have hlook : ∀ c : Clocked, (∀ reading ∈ c.readings, ∀ s, R s (s.read reading)) →
      R c.session c.look.session ∧ ∀ reading ∈ c.look.readings, ∀ s, R s (s.read reading) := by
    intro c hread
    rcases c.look_cases with hc | ⟨reading, rest, hreadings, hc⟩ <;> rw [hc]
    · exact ⟨O.refl _, hread⟩
    · rw [hreadings] at hread
      exact ⟨hread reading List.mem_cons_self _, fun next h => hread next (List.mem_cons_of_mem _ h)⟩
  induction action generalizing c with
  | done => exact O.refl _
  | fail error => exact O.refl _
  | insert fact next ih =>
    obtain ⟨hc, hrest⟩ := hlook c hread
    exact O.trans (O.trans hc (O.change _ (.insert fact))) (ih _ ⟨_, _⟩ hrest)
  | update i fact next ih =>
    obtain ⟨hc, hrest⟩ := hlook c hread
    exact O.trans (O.trans hc (O.change _ (.update i fact))) (ih _ ⟨_, _⟩ hrest)
  | modify i change next ih =>
    obtain ⟨hc, hrest⟩ := hlook c hread
    exact O.trans (O.trans hc (O.change _ (.modify i change))) (ih _ ⟨_, _⟩ hrest)
  | retract i next ih =>
    obtain ⟨hc, hrest⟩ := hlook c hread
    exact O.trans (O.trans hc (O.change _ (.retract i))) (ih _ ⟨_, _⟩ hrest)
  | look i next ih => exact ih _ c hread
  | focus group next ih => exact O.trans (O.setFocus _ group) (ih ⟨_, _⟩ hread)
  | popFocus next ih => exact O.trans (O.popFocus _) (ih _ ⟨_, _⟩ hread)
  | clearGroup group next ih => exact O.trans (O.clearGroup _ group) (ih _ ⟨_, _⟩ hread)
  | halt next ih => exact O.trans (O.halt _) (ih ⟨_, _⟩ hread)
  | now next ih =>
    obtain ⟨hc, hrest⟩ := hlook c hread
    exact O.trans hc (ih _ c.look hrest)
  | query name params next ih =>
    obtain ⟨hc, hrest⟩ := hlook c hread
    exact O.trans hc (ih _ c.look hrest)
  | readGlobal name next ih => exact ih _ c hread
  | writeGlobal name value next ih => exact O.trans (O.share _ _) (ih ⟨_, _⟩ hread)

theorem Obeys.perform {R : Session → Session → Prop} (O : Obeys R) (action : Action) (s : Session) :
    R s (Session.perform action s).2 := by
  have h := O.clocked action ⟨s, []⟩ nofun
  rwa [Clocked.perform_still] at h

/-- To fire all is to fire within as many steps as a cycle is given. -/
theorem fireAll_eq (s : Session) (limit : Option Nat) :
    (s.fireAll limit).2 = (s.fireWithin endless limit).2 := by
  unfold fireAll
  split <;> next heq => rw [heq]

/-- A cycle that ends within the steps it is given is a run. -/
theorem fireAll_of_fireWithin {s t : Session} {limit : Option Nat} {outcome : FireOutcome}
    {answer : Except EngineError Nat} (h : s.fireWithin endless limit = (outcome, t))
    (hanswer : outcome.answer? = some answer) : s.fireAll limit = (answer, t) := by
  unfold fireAll
  rw [h]
  cases outcome with
  | finished count => cases hanswer; rfl
  | failed e => cases hanswer; rfl
  | unfinished count => cases hanswer

/-- What is asked of a mailbox leaves the session alone, changes it, fires or moves the focus. -/
theorem serve_cases (s : Session) (request : Request) : (s.serve request).2 = s ∨
    (∃ c, (s.serve request).2 = s.change c) ∨
    (∃ limit, (s.serve request).2 = (s.fireWithin endless limit).2) ∨
    (∃ group, (s.serve request).2 = s.setFocus group) ∨ (s.serve request).2 = s.popFocus.2 := by
  cases request with
  | insert fact => exact .inr (.inl ⟨.insert fact, rfl⟩)
  | update i fact => exact .inr (.inl ⟨.update i fact, rfl⟩)
  | retract i => exact .inr (.inl ⟨.retract i, rfl⟩)
  | look i => exact .inl rfl
  | fire limit => exact .inr (.inr (.inl ⟨limit, s.fireAll_eq limit⟩))
  | setFocus group => exact .inr (.inr (.inr (.inl ⟨group, rfl⟩)))
  | popFocus => exact .inr (.inr (.inr (.inr rfl)))
  | query name params => exact .inl rfl
  | advance span => exact .inr (.inl ⟨.advance span, rfl⟩)
  | counts => exact .inl rfl

namespace Reached

variable {base : RuleBase} {settings : Settings}

/-- All sessions that requests lead to are steady. -/
theorem steady (W : base.network.WellFormed) (h : Reached base settings s) :
    s.Steady ∧ s.base = base ∧ s.settings = settings := by
  induction h with
  | start reading => exact steady_start W settings reading
  | step _ hs ih =>
    obtain ⟨hsteady, hb, hset⟩ := ih
    have ho := hs.onward hsteady (by rw [network, hb]; exact W)
    exact ⟨ho.steady, ho.base.trans hb, ho.settings.trans hset⟩

/-! ## Actions and cycles -/

theorem change (h : Reached base settings s) (c : Change) : Reached base settings (s.change c) :=
  h.step (.change s c)

theorem read (h : Reached base settings s) (reading : Moment) :
    Reached base settings (s.read reading) := by
  unfold Session.read
  cases hclock : s.clock with
  | realtime last => exact h.step (.read s reading (by rw [hclock]; rfl))
  | manual now =>
    rw [Clock.read, ← hclock]
    exact h

theorem changesAt (h : Reached base settings s) (changes : List (Moment × Change)) :
    Reached base settings (changes.foldl changeAt s) :=
  List.foldlRecOn changes changeAt (motive := Reached base settings) h
    fun _ h c _ => (h.read c.1).change c.2

/-- What an action asks for leads to sessions that steps lead to. -/
theorem obeys : Obeys fun s t => Reached base settings s → Reached base settings t where
  refl _ := id
  trans h h' := h' ∘ h
  change _ c h := h.change c
  setFocus s group h := h.step (.setFocus s group)
  popFocus s h := h.step (.popFocus s)
  clearGroup s group h := h.step (.clearGroup s group)
  halt s h := h.step (.halt s true)
  share s globals h := h.step (.share s globals)

/-- An action leads to sessions that its requests lead to. -/
theorem perform (action : Action) {s : Session} (h : Reached base settings s) :
    Reached base settings (Session.perform action s).2 :=
  obeys.perform action s h

/-- So does a firing, also while the clock runs. -/
theorem fireClocked (h : Reached base settings s) {a : Activation} {agenda : Agenda}
    (hp : s.agenda.popNext = some (a, agenda)) (readings : List Moment) :
    Reached base settings (Clocked.fire ⟨{ s with agenda }, readings⟩ a).2.session := by
  have hbegun := obeys.clocked (({ s with agenda } : Session).actionOf a) ⟨_, readings⟩
    (fun reading _ s h => h.read reading) (h.step (.begin s a agenda hp))
  unfold Clocked.fire
  dsimp only
  split
  · exact hbegun.step (.finish _ _ _)
  · exact hbegun.step (.finish _ _ _)

theorem fire (h : Reached base settings s) {a : Activation} {agenda : Agenda}
    (hp : s.agenda.popNext = some (a, agenda)) :
    Reached base settings (({ s with agenda } : Session).fire a).2 := by
  have hfired := h.fireClocked hp []
  rwa [Clocked.fire_still] at hfired

theorem cycle (limit : Option Nat) (steps : Nat) {s : Session} (h : Reached base settings s)
    (fired : Nat) : Reached base settings (Session.cycle limit steps fired s).2 := by
  induction steps generalizing s fired with
  | zero => exact h
  | succ steps ih =>
    unfold Session.cycle
    split
    · exact h
    · have hs := h.step (.synchronize s)
      dsimp only
      split
      · exact hs
      · next a agenda hp =>
        have hf := hs.fire hp
        split
        · next heq =>
          rw [heq] at hf
          exact ih hf _
        · next heq =>
          rw [heq] at hf
          exact hf

theorem fireWithin (h : Reached base settings s) (steps : Nat) (limit : Option Nat) :
    Reached base settings (s.fireWithin steps limit).2 := by
  have hc := cycle limit steps ((h.step (.synchronize s)).step (.halt _ false)) 0
  exact (hc.step (.unlock _)).step (.halt _ false)

/-- A firing cycle leads to sessions that its steps lead to. -/
theorem fireAll (h : Reached base settings s) (limit : Option Nat) :
    Reached base settings (s.fireAll limit).2 := by
  rw [fireAll_eq]
  exact h.fireWithin endless limit

/-- Requests lead to sessions that their steps lead to. -/
theorem serve (h : Reached base settings s) (request : Request) :
    Reached base settings (s.serve request).2 := by
  rcases s.serve_cases request with hs | ⟨c, hs⟩ | ⟨limit, hs⟩ | ⟨group, hs⟩ | hs <;> rw [hs]
  · exact h
  · exact h.change c
  · exact h.fireWithin endless limit
  · exact h.step (.setFocus s group)
  · exact h.step (.popFocus s)

end Reached

end RuleNet.Session
