/-
  A session that many clients share.

  Clients hold handles, which they clone and drop. A call through a handle waits for room in the channel,
  and then for its answer; its client may stop waiting at any time. The owner of the session takes the
  calls out of the channel one at a time, and gives the session back when no handle is left. A call whose
  firing cycle does not end is never served, and neither are those behind it.

  * `Service.step`: one deed of a client, of the channel or of the owner, if it can be done now.
  * `Service.run`: deeds in a row, in whatever order they happen.
-/
import RuleNet.Session.Mailbox

namespace RuleNet

/-- The owner of a shared session. -/
inductive Owner where
  | running (s : Session)
  /-- No handle was left, and the session has been given back. -/
  | finished (s : Session)
  /-- The owner was stopped, and the session is lost. -/
  | stopped

def Owner.isRunning : Owner → Bool
  | running _ => true
  | finished _ => false
  | stopped => false

/-- How far a call has got. -/
inductive CallState where
  /-- It waits for room in the channel. -/
  | sending
  /-- It has been accepted, and waits for its answer. -/
  | waiting
  | answered (answer : Except EngineError Answer)
  /-- Its client has stopped waiting. -/
  | abandoned

def CallState.isOpen : CallState → Bool
  | sending => true
  | waiting => true
  | answered _ => false
  | abandoned => false

structure Call where
  /-- The handle through which it was made. -/
  handle : Nat
  request : Request
  state : CallState

structure Service where
  owner : Owner
  /-- The calls that were accepted and have not been served, the oldest first. -/
  queue : List Nat
  /-- The handles that clients hold. -/
  handles : List Nat
  /-- How many handles there have ever been. -/
  made : Nat
  /-- All calls, by their numbers. -/
  calls : List Call

/-- What can happen. -/
inductive Deed where
  | clone (handle : Nat)
  | drop (handle : Nat)
  | call (handle : Nat) (request : Request)
  /-- The channel takes a call. -/
  | accept (call : Nat)
  /-- A client stops waiting for its call. -/
  | abandon (call : Nat)
  /-- A client learns that its call will get no answer. -/
  | refuse (call : Nat)
  /-- The owner takes the oldest call out of the channel and answers it. -/
  | serve (serving : Serving)
  /-- The owner gives the session back. -/
  | finish
  /-- The owner is stopped, and what is in the channel is lost. -/
  | stop

namespace Service

/-- How many calls the channel holds before others must wait. -/
def capacity : Nat := 256

/-- One client has a handle to a session. -/
def opened (s : Session) : Service := ⟨.running s, [], [0], 1, []⟩

def call? (v : Service) (k : Nat) : Option Call := v.calls[k]?

/-- Whether a call waits for room or for its answer. -/
def isOpen (v : Service) (k : Nat) : Bool := (v.call? k).any (·.state.isOpen)

/-- A call has got further. -/
def put (v : Service) (k : Nat) (state : CallState) : Service :=
  { v with calls := v.calls.modify k ({ · with state }) }

/-- The answer reaches a client that still waits for it. -/
def reply (v : Service) (k : Nat) (answer : Except EngineError Answer) : Service :=
  match (v.call? k).map Call.state with
  | some .waiting => v.put k (.answered answer)
  | _ => v

/-- What the service is after a deed, if the deed can be done now. -/
def step (v : Service) : Deed → Option Service
  | .clone h =>
    if h ∈ v.handles then some { v with handles := v.made :: v.handles, made := v.made + 1 } else none
  | .drop h =>
    -- a call holds on to its handle
    if h ∈ v.handles ∧ ∀ call ∈ v.calls, call.state.isOpen = true → call.handle ≠ h then
      some { v with handles := v.handles.erase h }
    else none
  | .call h request =>
    if h ∈ v.handles then some { v with calls := v.calls ++ [⟨h, request, .sending⟩] } else none
  | .accept k => match (v.call? k).map Call.state with
    | some .sending =>
      if v.owner.isRunning ∧ v.queue.length < capacity then
        some { v.put k .waiting with queue := v.queue ++ [k] }
      else none
    | _ => none
  | .abandon k => if v.isOpen k then some (v.put k .abandoned) else none
  | .refuse k =>
    if v.isOpen k ∧ ¬ v.owner.isRunning then some (v.put k (.answered (.error .sessionClosed)))
    else none
  | .serve serving => match v.owner, v.queue with
    | .running s, k :: rest => do
      let call ← v.call? k
      let (answer, s) ← s.serve? serving call.request
      some { v.reply k answer with owner := .running s, queue := rest }
    | _, _ => none
  | .finish => match v.owner with
    | .running s => if v.handles = [] ∧ v.queue = [] then some { v with owner := .finished s } else none
    | _ => none
  | .stop => match v.owner with
    | .running _ => some { v with owner := .stopped, queue := [] }
    | _ => none

/-- What the service is after deeds in a row, if each could be done when it was its turn. -/
def run (v : Service) : List Deed → Option Service
  | [] => some v
  | deed :: rest => (v.step deed).bind fun v => v.run rest

end Service

end RuleNet
