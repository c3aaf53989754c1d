/-
  Firing: actions run one after the other, until nothing is left to fire.

  * `Session.perform` runs an action; what it did before a failure stays done.
  * `Session.fire` fires one activation.
  * `Session.fireWithin` fires in the focused group until it is empty, a limit is reached, an action
    halts or fails, or a number of steps is used up.
  * `Session.fireAll` does so for as many steps as anyone will wait for; a cycle that has not ended then is
    given up.

  All of this takes place at one reading of a realtime clock; `Clocked` lets the clock run meanwhile.
-/
import RuleNet.Session.Operations

namespace RuleNet

/-- How a firing cycle ended. -/
inductive FireOutcome where
  | finished (count : Nat)
  | failed (error : EngineError)
  /-- The steps were used up. -/
  | unfinished (count : Nat)
  deriving DecidableEq

/-- What a cycle answers that has ended. -/
def FireOutcome.answer? : FireOutcome → Option (Except EngineError Nat)
  | finished count => some (.ok count)
  | failed e => some (.error e)
  | unfinished _ => none

namespace Session

/-! ## Actions -/

/-- Run an action. -/
def perform : Action → Session → Except ActionError Unit × Session
  | .done, s => (.ok (), s)
  | .fail error, s => (.error error, s)
  | .insert fact next, s => let (answer, s) := s.insert fact; perform (next answer) s
  | .update h fact next, s => let (answer, s) := s.update h fact; perform (next answer) s
  | .modify h change next, s => let (answer, s) := s.modify h change; perform (next answer) s
  | .retract h next, s => let (answer, s) := s.retract h; perform (next answer) s
  | .look h next, s => perform (next (s.store.fact? h)) s
  | .focus group next, s => perform next (s.setFocus group)
  | .popFocus next, s => let (group, s) := s.popFocus; perform (next group) s
  | .clearGroup group next, s => let (count, s) := s.clearGroup group; perform (next count) s
  | .halt next, s => perform next { s with halted := true }
  | .now next, s => perform (next s.now) s
  | .query name params next, s => perform (next (s.query name params)) s
  | .readGlobal name next, s => perform (next (s.global? name)) s
  | .writeGlobal name value next, s => perform next (s.setGlobal name value)

/-- The action of an activation's rule for its match. -/
def actionOf (s : Session) (activation : Activation) : Action :=
  match s.base.rules[activation.rule]? with
  | some rule => rule.action ⟨rule.name, activation.binding⟩
  | none => .done

/-- Fire one activation. -/
def fire (s : Session) (activation : Activation) : Except EngineError Unit × Session :=
  let previous := s.firing
  let begun := { s.tell (.firing activation) with firing := some activation.rule }
  let (result, s) := begun.perform (s.actionOf activation)
  let s := { s with firing := previous }
  match result with
  | .ok () => (.ok (), s.tell (.fired activation))
  | .error error =>
    (.error (.action (s.ruleName activation.rule) error), s.tell (.failed activation error))

/-! ## Cycles -/

/-- Fire until the cycle ends, with `fired` activations fired so far. -/
def cycle (limit : Option Nat) : Nat → Nat → Session → FireOutcome × Session
  | 0, fired, s => (.unfinished fired, s)
  | steps + 1, fired, s =>
    if s.halted || limit.any (· ≤ fired) then (.finished fired, s)
    else
      let s := s.synchronize
      match s.agenda.popNext with
      | none => (.finished fired, s)
      | some (activation, agenda) =>
        match { s with agenda }.fire activation with
        | (.ok (), s) => cycle limit steps (fired + 1) s
        | (.error e, s) => (.failed e, s)

/-- Fire within a number of steps. -/
def fireWithin (s : Session) (steps : Nat) (limit : Option Nat) : FireOutcome × Session :=
  let (outcome, s) := cycle limit steps 0 { s.synchronize with halted := false }
  (outcome, { s with agenda := s.agenda.unlock, halted := false })

/-- How many steps a cycle is given. There are cycles that never end, but one that ends after more steps
    than these will not be seen to. -/
def endless : Nat := 1000000000000000000

/-- Fire activations of the focused group, at most `limit` of them; how many fired. A cycle that has not
    ended when its steps are used up is given up. -/
def fireAll (s : Session) (limit : Option Nat) : Except EngineError Nat × Session :=
  match s.fireWithin endless limit with
  | (.finished count, s) => (.ok count, s)
  | (.failed e, s) => (.error e, s)
  | (.unfinished count, s) => (.error (.unfinished count), s)

end Session

end RuleNet
