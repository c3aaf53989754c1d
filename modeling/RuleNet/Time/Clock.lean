/-
  The clock of a session and the schedule of its expiring events.

  * `Clock.advance`: only a manual clock can be moved; `Clock.read`: only a realtime clock moves on by itself.
  * `ExpirySchedule`: the deadlines of facts, by fact and in order of time.
  * `ExpirySchedule.due`, `ExpirySchedule.takeDue`: the facts whose time has come, the earliest
    deadline first, facts of one deadline by handle.
-/
import RuleNet.Data.Keyed
import RuleNet.Settings

namespace RuleNet

/-! ## Clocks -/

/-- A session clock. A realtime clock shows the reading it was last given. -/
inductive Clock where
  | realtime (reading : Moment)
  | manual (now : Moment)
  deriving DecidableEq, Inhabited

namespace Clock

/-- The clock that settings ask for, at a given reading of the real time. -/
def start (settings : Settings) (reading : Moment) : Clock := match settings.clock with
  | .realtime => realtime reading
  | .manual => manual settings.clockStart

def now : Clock → Moment
  | realtime reading => reading
  | manual now => now

def isManual : Clock → Bool
  | realtime _ => false
  | manual _ => true

/-- A clock when the real time is read; a manual clock does not show it. -/
def read (clock : Clock) (reading : Moment) : Clock := match clock with
  | realtime _ => realtime reading
  | manual now => manual now

/-- Move a manual clock on. -/
def advance (clock : Clock) (span : Span) : Except EngineError Clock := match clock with
  | realtime _ => .error .realtimeClock
  | manual now => .ok (manual (Moment.later now span.millis))

end Clock

/-! ## Expiry -/

/-- The deadlines of facts. -/
structure ExpirySchedule where
  /-- Deadlines and their facts, in order of time. -/
  queue : Std.ExtTreeSet (Moment × Handle) dictionary
  /-- The deadline of each fact that has one. -/
  deadlines : Std.ExtTreeMap Handle Moment

namespace ExpirySchedule

def empty : ExpirySchedule := ⟨∅, ∅⟩

/-- Forget the deadline of a fact. -/
def cancel (schedule : ExpirySchedule) (h : Handle) : ExpirySchedule :=
  match schedule.deadlines[h]? with
  | some deadline => ⟨schedule.queue.erase (deadline, h), schedule.deadlines.erase h⟩
  | none => schedule

/-- Give a fact a deadline in place of any it had. -/
def put (schedule : ExpirySchedule) (h : Handle) (deadline : Moment) : ExpirySchedule :=
  let rest := schedule.cancel h
  ⟨rest.queue.insert (deadline, h), rest.deadlines.insert h deadline⟩

/-- Whether the deadline of a fact has come. -/
def isExpired (schedule : ExpirySchedule) (h : Handle) (now : Moment) : Bool :=
  match schedule.deadlines[h]? with
  | some deadline => decide (deadline ≤ now)
  | none => false

/-- The facts whose deadlines have come, in order of deadline and handle. -/
def due (schedule : ExpirySchedule) (now : Moment) : List Handle :=
  (schedule.queue.toList.takeWhile fun entry => decide (entry.1 ≤ now)).map Prod.snd

/-- The schedule without the facts whose deadlines have come. -/
def takeDue (schedule : ExpirySchedule) (now : Moment) : ExpirySchedule :=
  (schedule.due now).foldl cancel schedule

def size (schedule : ExpirySchedule) : Nat := schedule.deadlines.size

end ExpirySchedule

end RuleNet
