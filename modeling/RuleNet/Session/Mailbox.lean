/-
  Mailboxes: one session that many clients send requests to.

  Requests are served one at a time in the order of their arrival.

  * `Session.serve` answers one request at one reading of the clock.
  * `Session.serve?` answers one while the clock runs, if a firing cycle that it asks for ends;
    `Session.serveAll?` answers a queue of them.
  * `Mailbox.ask`: a closed mailbox answers every request with an error.
-/
import RuleNet.Session.Clocked

namespace RuleNet

/-- What a client can ask of a session. -/
inductive Request where
  | insert (fact : Fact)
  | update (h : Handle) (fact : Fact)
  | retract (h : Handle)
  | look (h : Handle)
  | fire (limit : Option Nat)
  | setFocus (group : String)
  | popFocus
  | query (name : String) (params : List Value)
  | advance (span : Span)
  | counts

/-- What a session answers. -/
inductive Answer where
  | handle (h : Handle)
  | done
  | fact (fact : Fact)
  | look (fact : Option Fact)
  | fired (count : Nat)
  | group (name : Option String)
  | rows (rows : List Row)
  | moment (now : Moment)
  | counts (counts : SessionCounts)
  deriving DecidableEq

/-- How a request is served: how many steps a firing cycle may take, and what a realtime clock shows
    meanwhile. -/
structure Serving where
  steps : Nat
  readings : List Moment

namespace Session

/-- Answer one request. -/
def serve (s : Session) : Request → Except EngineError Answer × Session
  | .insert fact => let (answer, s) := s.insert fact; (answer.map .handle, s)
  | .update h fact => let (answer, s) := s.update h fact; (answer.map fun _ => .done, s)
  | .retract h => let (answer, s) := s.retract h; (answer.map .fact, s)
  | .look h => (.ok (.look (s.store.fact? h)), s)
  | .fire limit => let (answer, s) := s.fireAll limit; (answer.map .fired, s)
  | .setFocus group => (.ok .done, s.setFocus group)
  | .popFocus => let (group, s) := s.popFocus; (.ok (.group group), s)
  | .query name params => ((s.query name params).map .rows, s)
  | .advance span => let (answer, s) := s.advance span; (answer.map .moment, s)
  | .counts => (.ok (.counts s.counts), s)

/-- Answer one request, if a firing cycle that it asks for ends within the steps it is given. -/
def serve? (s : Session) (serving : Serving) (request : Request) :
    Option (Except EngineError Answer × Session) :=
  let c : Clocked := ⟨s, serving.readings⟩
  match request with
  | .fire limit =>
    let (outcome, c) := c.fireWithin serving.steps limit
    outcome.answer?.map fun answer => (answer.map .fired, c.session)
  | request => some (c.look.session.serve request)

/-- Answer requests in order, if all of them can be answered. -/
def serveAll? (s : Session) :
    List (Serving × Request) → Option (List (Except EngineError Answer) × Session)
  | [] => some ([], s)
  | (serving, request) :: rest => do
    let (answer, s) ← s.serve? serving request
    let (answers, s) ← s.serveAll? rest
    some (answer :: answers, s)

end Session

/-- A session behind a mailbox, until it is stopped. -/
inductive Mailbox where
  | running (s : Session)
  | closed

namespace Mailbox

/-- Send a request and wait for the answer. -/
def ask (box : Mailbox) (request : Request) : Except EngineError Answer × Mailbox := match box with
  | running s => let (answer, s) := s.serve request; (answer, running s)
  | closed => (.error .sessionClosed, closed)

/-- Stop the session and lose it. -/
def abort (_ : Mailbox) : Mailbox := closed

/-- The session, once no client is left. -/
def session? : Mailbox → Option Session
  | running s => some s
  | closed => none

end Mailbox

end RuleNet
