/-
  Sessions: working memory, matches, agenda and clock of one run of a rule base.

  * `Session.start`: a session without facts.
  * `Session.applyEvents`: what happened at terminals becomes activations.
  * `Session.synchronize`: what is overdue at the current time goes.
  * `JournalEvent`: what a session tells; the journal holds all of it from the start.
-/
import RuleNet.Agenda
import RuleNet.Matching.Facts
import RuleNet.Query.Rows
import RuleNet.RuleBase
import RuleNet.Time.Clock

namespace RuleNet

/-! ## The journal -/

/-- What a session tells those who follow it. -/
inductive JournalEvent where
  | inserted (h : Handle) (fact : Fact)
  | updated (h : Handle) (previous current : Fact)
  | retracted (h : Handle) (fact : Fact)
  | created (activation : Activation)
  | cancelled (activation : Activation)
  | firing (activation : Activation)
  | fired (activation : Activation)
  | failed (activation : Activation) (error : ActionError)
  deriving DecidableEq

/-- The rules that fired, whether or not their actions succeeded, in order. -/
def firedRules (events : List JournalEvent) : List Nat :=
  events.filterMap fun event => match event with
    | .fired activation => some activation.rule
    | .failed activation _ => some activation.rule
    | _ => none

/-! ## Sessions -/

structure Session where
  base : RuleBase
  settings : Settings
  store : WorkingMemory
  matching : Matching
  agenda : Agenda
  clock : Clock
  expiry : ExpirySchedule
  /-- The values that actions share. -/
  globals : Entries Global
  journal : Array JournalEvent
  /-- The rule whose action is running. -/
  firing : Option Nat
  halted : Bool

/-- How much there is in a session. -/
structure SessionCounts where
  facts : Nat
  pending : Nat
  tokens : Nat
  leftTokens : Nat
  expiries : Nat
  now : Moment
  focus : List String
  agenda : AgendaCounts
  deriving DecidableEq

namespace Session

/-- The network that the session's matches are kept by. -/
abbrev network (s : Session) : Network := s.base.network

def now (s : Session) : Moment := s.clock.now

def counts (s : Session) : SessionCounts where
  facts := s.store.size
  pending := s.agenda.size
  tokens := s.matching.tokenCount
  leftTokens := s.matching.leftCount
  expiries := s.expiry.size
  now := s.now
  focus := s.agenda.focusStack
  agenda := s.agenda.counts

/-- The name of the rule of an activation. -/
def ruleName (s : Session) (rule : Nat) : String := ((s.base.rules[rule]?).map Rule.name).getD ""

/-- Write an event into the journal. -/
def tell (s : Session) (event : JournalEvent) : Session :=
  { s with journal := s.journal.push event }

/-! ## Activations -/

/-- Whether a new match of a rule is not to become an activation. -/
def isSuppressed (s : Session) (place : Nat) (rule : Rule) : Bool :=
  (rule.noLoop && s.firing == some place) || (rule.lockOnActive && s.agenda.isLocked rule.group)

/-- A match has reached a terminal: it becomes an activation, unless its rule forbids it. -/
def activate (s : Session) (terminal : TerminalId) (token : TokenId) : Session :=
  match s.network.terminal? terminal with
  | none => s
  | some definition => match s.base.rules[definition.rule]? with
    | none => s
    | some rule =>
      if s.isSuppressed definition.rule rule then { s with agenda := s.agenda.recordSuppressed }
      else
        let binding := s.matching.binding s.store definition.scope token
        let agenda :=
          s.agenda.create definition.rule terminal token rule.salience rule.group binding
        let created := agenda.get? s.agenda.nextId
        let s := { s with agenda := if rule.autoFocus then agenda.setFocus rule.group else agenda }
        match created with
        | some activation => s.tell (.created activation)
        | none => s

/-- A match is no more: its activation is cancelled, if it still waits. -/
def deactivate (s : Session) (terminal : TerminalId) (token : TokenId) : Session :=
  let (cancelled, agenda) := s.agenda.cancel terminal token
  let s := { s with agenda }
  match cancelled with
  | some activation => s.tell (.cancelled activation)
  | none => s

/-- What one event at a terminal means for the agenda. -/
def applyEvent (s : Session) : MatchEvent → Session
  | .formed terminal token => s.activate terminal token
  | .broken terminal token => s.deactivate terminal token

/-- Bring the agenda up to date with the matches. -/
def applyEvents (s : Session) : Session :=
  let (events, matching) := s.matching.takeEvents
  events.foldl applyEvent { s with matching }

/-- A session without facts. A realtime clock starts at `reading`. -/
def start (base : RuleBase) (settings : Settings) (reading : Moment) : Session :=
  let store := WorkingMemory.empty settings.identityMode
  applyEvents
    { base, settings, store
      matching := Matching.start base.network store
      agenda := .empty settings.conflictStrategy
      clock := .start settings reading
      expiry := .empty
      globals := []
      journal := #[]
      firing := none
      halted := false }

/-! ## Time -/

/-- A session when the real time is read. -/
def read (s : Session) (reading : Moment) : Session := { s with clock := s.clock.read reading }

/-- Retract a fact at the current time. -/
def remove (s : Session) (h : Handle) : Except EngineError Fact × Session :=
  let s := { s with matching := s.matching.retract s.network s.store h }
  match s.store.remove? h with
  | .error e => (.error e, s)
  | .ok (entry, store) =>
    let s := { s with store, expiry := s.expiry.cancel h }
    (.ok entry.fact, (s.tell (.retracted h entry.fact)).applyEvents)

/-- Retract a fact whose deadline has come, if it is live. -/
def expire (s : Session) (h : Handle) : Session :=
  if s.store.contains h then (s.remove h).2 else s

/-- Retract events that are overdue, and let others leave the windows they are too old for. -/
def synchronize (s : Session) : Session :=
  let now := s.now
  let due := s.expiry.due now
  let s := due.foldl expire { s with expiry := s.expiry.takeDue now }
  { s with matching := s.matching.expireWindows s.network s.store now }.applyEvents

end Session

end RuleNet
