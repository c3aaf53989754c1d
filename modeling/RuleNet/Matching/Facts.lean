/-
  Facts in a matching: how facts enter and leave alpha memories, and what follows from it.

  * `Matching.start`: the matches that hold without any fact.
  * `Matching.assert` and `Matching.retract`: a fact of working memory enters, or leaves everything.
  * `Matching.expireWindows`: events leave the time windows they are too old for.
  * `Matching.beginUpdate`, `Matching.endUpdate`: between them results are only marked, and in the
    end those that differ are made anew.
-/
import RuleNet.Matching.Propagate

namespace RuleNet.Matching

/-! ## Starting -/

/-- The matching of a session without facts. -/
def start (net : Network) (store : WorkingMemory) : Matching :=
  let m := empty.note (net.rootTerminals.map fun terminal => .formed terminal rootToken)
  net.rootChildren.foldl (fun m n => m.activateLeft net store n rootToken) m

/-- What happened since the last time, and the matching that has told it. -/
def takeEvents (m : Matching) : List MatchEvent × Matching :=
  (m.events.toList, { m with events := #[] })

/-! ## Alpha memories -/

/-- Put a fact into a memory at a position in window order. -/
def enter (m : Matching) (a : AlphaId) (fields : List String) (h : Handle) (fact : Fact)
    (position : Int) : Matching :=
  let memory := m.alpha a
  m.setAlpha a { memory with
    facts := memory.facts.insert h
    index := fields.foldl (fun (index : Entries (Buckets Value)) field =>
      index.insert field (((index.find? field).getD []).file (fact.value field).indexKey h))
      memory.index
    order := memory.order.insert (position, h)
    positions := memory.positions.insert h position }

/-- Take a fact out of a memory. -/
def leave (m : Matching) (a : AlphaId) (h : Handle) (fact : Fact) : Matching :=
  let memory := m.alpha a
  if memory.facts.contains h then
    m.setAlpha a { memory with
      facts := memory.facts.erase h
      index := memory.index.map fun (field, buckets) =>
        (field, buckets.unfile (fact.value field).indexKey h)
      order := match memory.positions[h]? with
        | some position => memory.order.erase (position, h)
        | none => memory.order
      positions := memory.positions.erase h }
  else m

/-- Let a fact arrive at a memory that is not a time window: it comes after all that came before. -/
def nextArrival (m : Matching) (a : AlphaId) : Int × Matching :=
  let memory := m.alpha a
  let arrivals := memory.arrivals + 1
  (arrivals, m.setAlpha a { memory with arrivals })

/-- Let a fact into one memory if it passes its tests and its window; whether it did. -/
def offer (net : Network) (now : Moment) (h : Handle) (entry : Entry) (m : Matching) (a : AlphaId) :
    Bool × Matching :=
  match net.alpha? a with
  | none => (false, m)
  | some alpha =>
    if Test.allHold .blank entry.fact entry.moment alpha.tests then
      match alpha.window with
      | some (.time length) =>
        if length.covers entry.moment now then
          (true, m.enter a alpha.indexedFields h entry.fact entry.moment)
        else (false, m)
      | _ =>
        let (position, m) := m.nextArrival a
        (true, m.enter a alpha.indexedFields h entry.fact position)
    else (false, m)

/-- Let a fact into all memories that take it; which ones did, in order. -/
def offerAll (net : Network) (now : Moment) (h : Handle) (entry : Entry) :
    Matching → List AlphaId → List AlphaId × Matching
  | m, [] => ([], m)
  | m, a :: rest =>
    let (entered, m) := m.offer net now h entry a
    let (others, m) := offerAll net now h entry m rest
    (if entered then a :: others else others, m)

/-- The nodes other than joins that a memory feeds, in order. -/
def watchers (net : Network) (a : AlphaId) : List NodeId :=
  (net.successorsOf a).filter fun n => !(net.kind? n).any NodeKind.isJoin

/-- Take a fact out of one memory only, and what it did there. -/
def evict (net : Network) (store : WorkingMemory) (a : AlphaId) (m : Matching) (h : Handle) :
    Matching :=
  match store.fact? h with
  | none => m
  | some fact =>
    let m := m.leave a h fact
    let m := { m with memoriesOf := m.memoriesOf.modify h fun alphas => alphas.filter (· != a) }
    let doomed := (m.tokensByFact.get h).toList.filter fun t =>
      ((m.tokens[t]?).bind Token.node).any fun n =>
        (net.kind? n).any fun kind => kind.alpha? == some a
    let m := doomed.foldl (fun m t => m.delete net t) m
    (watchers net a).foldl (retractRight net store h) m

/-- The oldest members of a length window that are too many. -/
def surplus (net : Network) (m : Matching) (a : AlphaId) : List Handle :=
  match (net.alpha? a).bind AlphaNode.window with
  | some (.length capacity) =>
    let memory := m.alpha a
    (memory.order.toList.take (memory.facts.size - capacity)).map Prod.snd
  | _ => []

/-! ## Facts -/

/-- A fact of working memory enters: it is put into the memories that take it, those that are full
    let their oldest members go, and then the nodes they feed meet it, the deepest first. -/
def assert (m : Matching) (net : Network) (store : WorkingMemory) (h : Handle) (now : Moment) :
    Matching :=
  match store.entry? h with
  | none => m
  | some entry =>
    let (entered, m) := offerAll net now h entry m (net.candidates entry.fact)
    let m := { m with memoriesOf := m.memoriesOf.insert h entered }
    let m := entered.foldl (fun m a => (m.surplus net a).foldl (evict net store a) m) m
    let targets := (entered.filter fun a => (m.alpha a).facts.contains h).flatMap net.successorsOf
    (net.deepestFirst targets).foldl (assertRight net store h) m

/-- A fact leaves, while working memory still has it: all its tokens go before any node that asks
    for absence is told. -/
def retract (m : Matching) (net : Network) (store : WorkingMemory) (h : Handle) : Matching :=
  match store.fact? h with
  | none => m
  | some fact =>
    let alphas := (m.memoriesOf[h]?).getD []
    let m := { m with memoriesOf := m.memoriesOf.erase h }
    let m := alphas.foldl (fun m a => m.leave a h fact) m
    let tokens := (m.tokensByFact.get h).toList
    let m := { m with tokensByFact := m.tokensByFact.erase h }
    let m := tokens.foldl (fun m t => m.delete net t) m
    alphas.foldl (fun m a => (watchers net a).foldl (retractRight net store h) m) m

/-- The members of a time window that are too old for it. -/
def outdated (net : Network) (now : Moment) (m : Matching) (a : AlphaId) : List Handle :=
  match (net.alpha? a).bind AlphaNode.window with
  | some (.time length) =>
    ((m.alpha a).order.toList.takeWhile fun member => !length.covers member.1 now).map Prod.snd
  | _ => []

/-- Events that are too old leave their time windows, memory by memory. -/
def expireWindows (m : Matching) (net : Network) (store : WorkingMemory) (now : Moment) :
    Matching :=
  (List.range net.alphas.size).foldl
    (fun m a => (m.outdated net now a).foldl (evict net store a) m) m

/-! ## Updates -/

/-- From here on results are only marked. -/
def beginUpdate (m : Matching) : Matching := { m with deferred := some (m.deferred.getD ∅) }

/-- Make the marked results anew that differ, in order of nodes. -/
def endUpdate (m : Matching) (net : Network) (store : WorkingMemory) : Matching :=
  match m.deferred with
  | none => m
  | some dirty =>
    dirty.toList.foldl (fun m result => m.settle net store result.1 result.2)
      { m with deferred := none }

end RuleNet.Matching
