/-
  Operations on a session. Each returns its answer or an error, and the session after it.

  * `insert`, `update`, `modify`, `retract`: facts come, change and go. Each first lets go what is overdue,
    and goes on at the same time: a realtime clock is read once for both.
  * `advance`: a manual clock moves on.
  * `setFocus`, `popFocus`, `clearGroup`: the agenda is steered.
  * `query`: a named query is asked.
-/
import RuleNet.Session.Basic

namespace RuleNet.Session

/-! ## Facts -/

/-- The declaration of a fact's type, if the fact fits it. -/
def checkFact (s : Session) (fact : Fact) : Except EngineError FactType :=
  match s.base.type? fact.type with
  | none => .error (.schema fact.type .undeclaredType)
  | some type => match type.check fact with
    | .error defect => .error (.schema type.name defect)
    | .ok () => .ok type

/-- Give a fact its deadline, if its type has one. -/
def schedule (s : Session) (type : FactType) (h : Handle) (moment : Moment) : Session :=
  match type.expiresAfter with
  | some span => { s with expiry := s.expiry.put h (moment.later span.millis) }
  | none => s

/-- Store a checked fact and let it be matched. -/
def receive (s : Session) (type : FactType) (fact : Fact) : Handle × Session :=
  let now := s.now
  let moment := type.moment fact now
  let h := s.store.nextHandle
  let s := { s with store := s.store.insert fact moment }
  let s := (s.schedule type h moment).tell (.inserted h fact)
  (h, { s with matching := s.matching.assert s.network s.store h now }.applyEvents)

/-- Insert a fact. In equality mode the handle of an equal live fact is returned instead. -/
def insert (s : Session) (fact : Fact) : Except EngineError Handle × Session :=
  let s := s.synchronize
  match s.checkFact fact with
  | .error e => (.error e, s)
  | .ok type => match s.store.findEqual? fact with
    | some h => (.ok h, s)
    | none =>
      let (h, s) := s.receive type fact
      (.ok h, s)

/-- Replace the value of a live fact, which has been checked. -/
def exchange (s : Session) (type : FactType) (h : Handle) (fact : Fact) (previous : Moment) :
    Except EngineError Unit × Session :=
  let now := s.now
  let moment := type.moment fact previous
  let coalesce := s.settings.updatePolicy == .coalesce
  let begun := if coalesce then s.matching.beginUpdate else s.matching
  let s := { s with matching := begun.retract s.network s.store h }
  match s.store.replace? h fact moment with
  | .error e => (.error e, s)
  | .ok (entry, store) =>
    let asserted := s.matching.assert s.network store h now
    let matching := if coalesce then asserted.endUpdate s.network store else asserted
    let s := { s with store, matching }
    let s := if moment = previous then s else s.schedule type h moment
    (.ok (), (s.tell (.updated h entry.fact fact)).applyEvents)

/-- Give a live fact a new value of its type. It keeps its handle, and its moment unless the value
    says otherwise. -/
def update (s : Session) (h : Handle) (fact : Fact) : Except EngineError Unit × Session :=
  let s := s.synchronize
  match s.store.entry? h with
  | none => (.error (.unknownHandle h), s)
  | some entry =>
    if entry.fact.type ≠ fact.type then
      (.error (.schema entry.fact.type (.typeChange h fact.type)), s)
    else match s.checkFact fact with
      | .error e => (.error e, s)
      | .ok type => s.exchange type h fact entry.moment

/-- Update a live fact by a change to its value. -/
def modify (s : Session) (h : Handle) (change : Fact → Fact) : Except EngineError Unit × Session :=
  match s.store.fact? h with
  | none => (.error (.unknownHandle h), s)
  | some fact => s.update h (change fact)

/-- Retract a live fact. No activation that rests on it is left. -/
def retract (s : Session) (h : Handle) : Except EngineError Fact × Session :=
  let s := s.synchronize
  if s.store.contains h then s.remove h else (.error (.unknownHandle h), s)

/-! ## Time -/

/-- Move a manual clock on, and let go what is overdue then. -/
def advance (s : Session) (span : Span) : Except EngineError Moment × Session :=
  match s.clock.advance span with
  | .error e => (.error e, s)
  | .ok clock => (.ok clock.now, { s with clock }.synchronize)

/-! ## Agenda -/

def setFocus (s : Session) (group : String) : Session :=
  { s with agenda := s.agenda.setFocus group }

def popFocus (s : Session) : Option String × Session :=
  let (group, agenda) := s.agenda.popFocus
  (group, { s with agenda })

/-- Cancel every waiting activation of a group; how many there were. -/
def clearGroup (s : Session) (group : String) : Nat × Session :=
  let (cleared, agenda) := s.agenda.clearGroup group
  (cleared.length,
    cleared.foldl (fun s activation => s.tell (.cancelled activation)) { s with agenda })

/-! ## Queries -/

/-- What a query reads of the session. -/
def queryView (s : Session) : QueryView := ⟨s.network, s.matching, s.store, s.expiry, s.now⟩

/-- The plan of a query, if it takes this number of parameters. -/
def plan (s : Session) (name : String) (params : List Value) : Except EngineError Plan :=
  match s.base.query? name with
  | none => .error (.unknownQuery name)
  | some plan =>
    if plan.parameters.length = params.length then .ok plan
    else .error (.queryArity name plan.parameters.length params.length)

/-- All rows of a query. -/
def query (s : Session) (name : String) (params : List Value) : Except EngineError (List Row) := do
  let plan ← s.plan name params
  .ok (s.queryView.allRows plan params)

/-! ## Globals -/

def global? (s : Session) (name : String) : Option Global := s.globals.find? name

def setGlobal (s : Session) (name : String) (value : Global) : Session :=
  { s with globals := s.globals.insert name value }

/-- Remove a global; whether there was one. -/
def removeGlobal (s : Session) (name : String) : Bool × Session :=
  (s.globals.contains name, { s with globals := s.globals.erase name })

end RuleNet.Session
