/-
  A session whose clock runs.

  A session looks at its clock when it is synchronised and when an action asks it for something. A
  realtime clock has moved on then, and what it shows is not up to the session: it is given beforehand,
  one reading for each look. When there are no more readings, the clock stands still; a manual clock
  heeds none of them.

  * `Clocked.look`: the session looks at its clock.
  * `Clocked.perform`, `Clocked.fire`: an action runs while the clock does.
  * `Clocked.fireWithin`: so does a firing cycle.
  * `Clocked.perform_still`, `Clocked.fire_still`, `Clocked.fireWithin_still`: without readings, actions,
    firings and cycles do what they do at one reading.
-/
import RuleNet.Session.Fire

namespace RuleNet

/-- A session, and what a realtime clock will show. -/
structure Clocked where
  session : Session
  readings : List Moment

namespace Clocked

/-- The session looks at its clock. -/
def look (c : Clocked) : Clocked := match c.readings with
  | [] => c
  | reading :: rest => ⟨c.session.read reading, rest⟩

/-- The session is asked for something, and looks at its clock first. -/
def ask {α : Type} (c : Clocked) (request : Session → α × Session) : α × Clocked :=
  let asked := request c.look.session
  (asked.1, ⟨asked.2, c.look.readings⟩)

/-- What is overdue goes. -/
def synchronize (c : Clocked) : Clocked := ⟨c.look.session.synchronize, c.look.readings⟩

/-- Run an action. -/
def perform : Action → Clocked → Except ActionError Unit × Clocked
  | .done, c => (.ok (), c)
  | .fail error, c => (.error error, c)
  | .insert fact next, c => let asked := c.ask (·.insert fact); perform (next asked.1) asked.2
  | .update h fact next, c => let asked := c.ask (·.update h fact); perform (next asked.1) asked.2
  | .modify h change next, c => let asked := c.ask (·.modify h change); perform (next asked.1) asked.2
  | .retract h next, c => let asked := c.ask (·.retract h); perform (next asked.1) asked.2
  | .look h next, c => perform (next (c.session.store.fact? h)) c
  | .focus group next, c => perform next { c with session := c.session.setFocus group }
  | .popFocus next, c =>
    let popped := c.session.popFocus
    perform (next popped.1) { c with session := popped.2 }
  | .clearGroup group next, c =>
    let cleared := c.session.clearGroup group
    perform (next cleared.1) { c with session := cleared.2 }
  | .halt next, c => perform next { c with session := { c.session with halted := true } }
  | .now next, c => perform (next c.look.session.now) c.look
  | .query name params next, c => perform (next (c.look.session.query name params)) c.look
  | .readGlobal name next, c => perform (next (c.session.global? name)) c
  | .writeGlobal name value next, c => perform next { c with session := c.session.setGlobal name value }

/-- Fire one activation. -/
def fire (c : Clocked) (activation : Activation) : Except EngineError Unit × Clocked :=
  let previous := c.session.firing
  let begun := { c.session.tell (.firing activation) with firing := some activation.rule }
  let (result, c) := perform (c.session.actionOf activation) ⟨begun, c.readings⟩
  let s := { c.session with firing := previous }
  match result with
  | .ok () => (.ok (), ⟨s.tell (.fired activation), c.readings⟩)
  | .error error => (.error (.action (s.ruleName activation.rule) error),
    ⟨s.tell (.failed activation error), c.readings⟩)

/-- Fire until the cycle ends, with `fired` activations fired so far. -/
def cycle (limit : Option Nat) : Nat → Nat → Clocked → FireOutcome × Clocked
  | 0, fired, c => (.unfinished fired, c)
  | steps + 1, fired, c =>
    if c.session.halted || limit.any (· ≤ fired) then (.finished fired, c)
    else
      let c := c.synchronize
      match c.session.agenda.popNext with
      | none => (.finished fired, c)
      | some (activation, agenda) =>
        match fire ⟨{ c.session with agenda }, c.readings⟩ activation with
        | (.ok (), c) => cycle limit steps (fired + 1) c
        | (.error e, c) => (.failed e, c)

/-- A cycle may begin. -/
def opened (c : Clocked) : Clocked :=
  ⟨{ c.synchronize.session with halted := false }, c.synchronize.readings⟩

/-- Fire within a number of steps. -/
def fireWithin (c : Clocked) (steps : Nat) (limit : Option Nat) : FireOutcome × Clocked :=
  let (outcome, c) := cycle limit steps 0 c.opened
  (outcome, ⟨{ c.session with agenda := c.session.agenda.unlock, halted := false }, c.readings⟩)

/-! ## A clock that stands still -/

/-- The clock has been read, or there is no reading left. -/
theorem look_cases (c : Clocked) : c.look = c ∨
    ∃ reading rest, c.readings = reading :: rest ∧ c.look = ⟨c.session.read reading, rest⟩ := by
  obtain ⟨s, readings⟩ := c
  cases readings with
  | nil => exact .inl rfl
  | cons reading rest => exact .inr ⟨reading, rest, rfl, rfl⟩

theorem ask_still {α : Type} (s : Session) (request : Session → α × Session) :
    ask ⟨s, []⟩ request = ((request s).1, ⟨(request s).2, []⟩) := rfl

theorem perform_still (action : Action) (s : Session) : perform action ⟨s, []⟩ =
    ((Session.perform action s).1, ⟨(Session.perform action s).2, []⟩) := by
  induction action generalizing s with
  | done => rfl
  | fail error => rfl
  | insert fact next ih =>
    simp only [perform, Session.perform, ask_still]
    exact ih _ _
  | update i fact next ih =>
    simp only [perform, Session.perform, ask_still]
    exact ih _ _
  | modify i change next ih =>
    simp only [perform, Session.perform, ask_still]
    exact ih _ _
  | retract i next ih =>
    simp only [perform, Session.perform, ask_still]
    exact ih _ _
  | look i next ih => exact ih _ _
  | focus group next ih => exact ih _
  | popFocus next ih => exact ih _ _
  | clearGroup group next ih => exact ih _ _
  | halt next ih => exact ih _
  | now next ih => exact ih _ _
  | query name params next ih => exact ih _ _
  | readGlobal name next ih => exact ih _ _
  | writeGlobal name value next ih => exact ih _

theorem fire_still (s : Session) (a : Activation) :
    fire ⟨s, []⟩ a = ((s.fire a).1, ⟨(s.fire a).2, []⟩) := by
  unfold fire Session.fire
  simp only [perform_still]
  obtain ⟨answer, after⟩ :=
    Session.perform (s.actionOf a) { s.tell (.firing a) with firing := some a.rule }
  cases answer with
  | ok => rfl
  | error error => rfl

theorem synchronize_still (s : Session) :
    synchronize ⟨s, []⟩ = ⟨s.synchronize, []⟩ := rfl

theorem cycle_still (limit : Option Nat) (steps fired : Nat) (s : Session) :
    cycle limit steps fired ⟨s, []⟩ =
      ((Session.cycle limit steps fired s).1, ⟨(Session.cycle limit steps fired s).2, []⟩) := by
  induction steps generalizing fired s with
  | zero => rfl
  | succ steps ih =>
    unfold cycle Session.cycle
    simp only [synchronize_still]
    split
    · rfl
    · cases s.synchronize.agenda.popNext with
      | none => rfl
      | some taken =>
        simp only [fire_still]
        cases ({ s.synchronize with agenda := taken.2 } : Session).fire taken.1 with
        | mk answer after =>
          cases answer with
          | ok => exact ih (fired + 1) after
          | error e => rfl

theorem fireWithin_still (s : Session) (steps : Nat) (limit : Option Nat) :
    fireWithin ⟨s, []⟩ steps limit =
      ((s.fireWithin steps limit).1, ⟨(s.fireWithin steps limit).2, []⟩) := by
  have hopened : opened ⟨s, []⟩ = ⟨{ s.synchronize with halted := false }, []⟩ := rfl
  unfold fireWithin Session.fireWithin
  rw [hopened, cycle_still]

end Clocked

end RuleNet
