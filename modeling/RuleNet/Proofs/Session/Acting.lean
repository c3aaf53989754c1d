/-
  What an action can do to the cycle it runs in.

  An action asks the session for changes, and moves the focus; only by asking for it does it halt the
  cycle. Whatever it does, it takes nothing off the agenda to fire it.

  * `Session.Onto`: rules and marks stay, and the agenda goes on without a firing.
  * `Session.onto_change`: so it does under every change.
  * `Clocked.halts`, `Session.halts`: whether an action asks to halt while it runs.
  * `Clocked.performed`: so it does while an action runs, and the mark is set where it asks for it.
-/
import RuleNet.Proofs.Conflict
import RuleNet.Proofs.Session.Changes

namespace RuleNet

namespace Session

/-! ## Changes -/

/-- Facts change, and activations come and go, but nothing fires. -/
structure Onto (s t : Session) : Prop where
  base : t.base = s.base
  firing : t.firing = s.firing
  halted : t.halted = s.halted
  agenda : s.agenda.Later t.agenda

variable {s t : Session}

namespace Onto

theorem refl (s : Session) : s.Onto s := ⟨rfl, rfl, rfl, .refl _⟩

theorem trans {u : Session} (h : s.Onto t) (h' : t.Onto u) : s.Onto u :=
  ⟨h'.base.trans h.base, h'.firing.trans h.firing, h'.halted.trans h.halted, h.agenda.trans h'.agenda⟩

/-- What an agenda does on its own. -/
theorem of_agenda (s : Session) {agenda : Agenda} (h : s.agenda.Later agenda) :
    s.Onto { s with agenda } :=
  ⟨rfl, rfl, rfl, h⟩

end Onto

theorem onto_activate (s : Session) (τ : TerminalId) (t : TokenId) : s.Onto (s.activate τ t) := by
  have A := aligned_activate s τ t
  refine ⟨A.base, A.firing, A.halted, ?_⟩
  unfold activate
  split
  · exact .refl _
  · split
    · exact .refl _
    · next terminal _ _ rule _ =>
      split
      · exact .of_get? id rfl rfl
      · have hcreated := Agenda.Later.create s.agenda terminal.rule τ t rule.salience rule.group
          (s.matching.binding s.store terminal.scope t)
        have hfocused := hcreated.trans (Agenda.Later.setFocus _ rule.group)
        have hif : ∀ (b : Bool) {agenda agenda' : Agenda}, s.agenda.Later agenda →
            s.agenda.Later agenda' → s.agenda.Later (if b then agenda else agenda') := by
          intro b agenda agenda' h h'
          cases b
          · exact h'
          · exact h
        dsimp only
        split <;> exact hif rule.autoFocus hfocused hcreated

theorem onto_deactivate (s : Session) (τ : TerminalId) (t : TokenId) :
    s.Onto (s.deactivate τ t) := by
  have A := aligned_deactivate s τ t
  refine ⟨A.base, A.firing, A.halted, ?_⟩
  have hcancel := Agenda.Later.cancel s.agenda τ t
  unfold deactivate
  dsimp only
  split <;> exact hcancel

/-- So it is along every change. -/
theorem carries_onto : Carries Onto where
  refl := .refl
  trans := .trans
  beside _ _ _ _ _ _ := ⟨rfl, rfl, rfl, .refl _⟩
  activate := onto_activate
  deactivate := onto_deactivate

theorem onto_applyEvents (s : Session) : s.Onto s.applyEvents := carries_onto.applyEvents s

theorem onto_expire (s : Session) (i : Handle) : s.Onto (s.expire i) := carries_onto.expire s i

theorem onto_remove (s : Session) (i : Handle) : s.Onto (s.remove i).2 := carries_onto.remove s i

theorem onto_synchronize (s : Session) : s.Onto s.synchronize := carries_onto.synchronize s

theorem onto_receive (s : Session) (type : FactType) (fact : Fact) :
    s.Onto (s.receive type fact).2 := carries_onto.receive s type fact

theorem onto_exchange (s : Session) (type : FactType) (i : Handle) (fact : Fact)
    (previous : Moment) : s.Onto (s.exchange type i fact previous).2 :=
  carries_onto.exchange s type i fact previous

/-- No change fires anything, halts a cycle, or ends a firing. -/
theorem onto_change (s : Session) (c : Change) : s.Onto (s.change c) := carries_onto.change s c

theorem onto_clearGroup (s : Session) (group : String) : s.Onto (s.clearGroup group).2 := by
  rw [clearGroup_eq]
  exact ⟨rfl, rfl, rfl, .clearGroup s.agenda group⟩

/-- No more does it to look at the clock. -/
theorem onto_look (c : Clocked) : c.session.Onto c.look.session := by
  rcases c.look_cases with hc | ⟨reading, rest, -, hc⟩ <;> rw [hc]
  · exact .refl _
  · exact ⟨rfl, rfl, rfl, .refl _⟩

/-! ## Actions -/

/-- Whether an action asks to halt the cycle while it runs. -/
def halts : Action → Session → Bool
  | .done, _ => false
  | .fail _, _ => false
  | .insert fact next, s => halts (next (s.insert fact).1) (s.insert fact).2
  | .update h fact next, s => halts (next (s.update h fact).1) (s.update h fact).2
  | .modify h change next, s => halts (next (s.modify h change).1) (s.modify h change).2
  | .retract h next, s => halts (next (s.retract h).1) (s.retract h).2
  | .look h next, s => halts (next (s.store.fact? h)) s
  | .focus group next, s => halts next (s.setFocus group)
  | .popFocus next, s => halts (next s.popFocus.1) s.popFocus.2
  | .clearGroup group next, s => halts (next (s.clearGroup group).1) (s.clearGroup group).2
  | .halt _, _ => true
  | .now next, s => halts (next s.now) s
  | .query name params next, s => halts (next (s.query name params)) s
  | .readGlobal name next, s => halts (next (s.global? name)) s
  | .writeGlobal name value next, s => halts next (s.setGlobal name value)

/-- What an action leaves behind: it has fired nothing, and the cycle is to halt if that was asked
    for. -/
structure Performed (s : Session) (halts : Bool) (t : Session) : Prop where
  base : t.base = s.base
  firing : t.firing = s.firing
  halted : t.halted = (s.halted || halts)
  agenda : s.agenda.Later t.agenda

theorem Onto.performed {u : Session} {halts : Bool} (h : s.Onto t) (h' : t.Performed halts u) :
    s.Performed halts u where
  base := h'.base.trans h.base
  firing := h'.firing.trans h.firing
  halted := h.halted ▸ h'.halted
  agenda := h.agenda.trans h'.agenda

end Session

namespace Clocked

/-- Whether an action asks to halt the cycle while it and the clock run. -/
def halts : Action → Clocked → Bool
  | .done, _ => false
  | .fail _, _ => false
  | .insert fact next, c => halts (next (c.ask (·.insert fact)).1) (c.ask (·.insert fact)).2
  | .update h fact next, c => halts (next (c.ask (·.update h fact)).1) (c.ask (·.update h fact)).2
  | .modify h change next, c =>
    halts (next (c.ask (·.modify h change)).1) (c.ask (·.modify h change)).2
  | .retract h next, c => halts (next (c.ask (·.retract h)).1) (c.ask (·.retract h)).2
  | .look h next, c => halts (next (c.session.store.fact? h)) c
  | .focus group next, c => halts next { c with session := c.session.setFocus group }
  | .popFocus next, c => halts (next c.session.popFocus.1) { c with session := c.session.popFocus.2 }
  | .clearGroup group next, c =>
    halts (next (c.session.clearGroup group).1) { c with session := (c.session.clearGroup group).2 }
  | .halt _, _ => true
  | .now next, c => halts (next c.look.session.now) c.look
  | .query name params next, c => halts (next (c.look.session.query name params)) c.look
  | .readGlobal name next, c => halts (next (c.session.global? name)) c
  | .writeGlobal name value next, c => halts next { c with session := c.session.setGlobal name value }

theorem halts_still (action : Action) (s : Session) : halts action ⟨s, []⟩ = s.halts action := by
  induction action generalizing s with
  | done => rfl
  | fail error => rfl
  | insert fact next ih => exact ih (s.insert fact).1 (s.insert fact).2
  | update i fact next ih => exact ih (s.update i fact).1 (s.update i fact).2
  | modify i change next ih => exact ih (s.modify i change).1 (s.modify i change).2
  | retract i next ih => exact ih (s.retract i).1 (s.retract i).2
  | look i next ih => exact ih _ _
  | focus group next ih => exact ih _
  | popFocus next ih => exact ih _ _
  | clearGroup group next ih => exact ih _ _
  | halt next ih => rfl
  | now next ih => exact ih _ _
  | query name params next ih => exact ih _ _
  | readGlobal name next ih => exact ih _ _
  | writeGlobal name value next ih => exact ih _

/-- An action is made of requests, none of which fires anything. -/
theorem performed (action : Action) (c : Clocked) :
    c.session.Performed (halts action c) (perform action c).2.session := by
  have hchange : ∀ (c : Clocked) (change : Session.Change),
      c.session.Onto (c.look.session.change change) := fun c change =>
    (Session.onto_look c).trans (Session.onto_change _ change)
  induction action generalizing c with
  | done => exact ⟨rfl, rfl, (Bool.or_false _).symm, .refl _⟩
  | fail error => exact ⟨rfl, rfl, (Bool.or_false _).symm, .refl _⟩
  | insert fact next ih =>
    exact (hchange c (.insert fact)).performed (ih (c.ask (·.insert fact)).1 (c.ask (·.insert fact)).2)
  | update i fact next ih =>
    exact (hchange c (.update i fact)).performed (ih (c.ask (·.update i fact)).1 (c.ask (·.update i fact)).2)
  | modify i change next ih =>
    exact (hchange c (.modify i change)).performed (ih (c.ask (·.modify i change)).1 (c.ask (·.modify i change)).2)
  | retract i next ih =>
    exact (hchange c (.retract i)).performed (ih (c.ask (·.retract i)).1 (c.ask (·.retract i)).2)
  | look i next ih => exact ih _ c
  | focus group next ih => exact (Session.Onto.of_agenda _ (.setFocus _ group)).performed (ih ⟨_, _⟩)
  | popFocus next ih => exact (Session.Onto.of_agenda _ (.popFocus _)).performed (ih _ ⟨_, _⟩)
  | clearGroup group next ih => exact (c.session.onto_clearGroup group).performed (ih _ ⟨_, _⟩)
  | halt next ih =>
    obtain ⟨hbase, hfiring, hhalted, hagenda⟩ := ih { c with session := { c.session with halted := true } }
    refine ⟨hbase, hfiring, ?_, hagenda⟩
    rw [halts, Bool.or_true]
    exact hhalted.trans (Bool.true_or _)
  | now next ih => exact (Session.onto_look c).performed (ih _ c.look)
  | query name params next ih => exact (Session.onto_look c).performed (ih _ c.look)
  | readGlobal name next ih => exact ih _ c
  | writeGlobal name value next ih =>
    have hshared : c.session.Onto (c.session.setGlobal name value) := ⟨rfl, rfl, rfl, .refl _⟩
    exact hshared.performed (ih ⟨_, _⟩)

end Clocked

end RuleNet
