/-
  The work of a matching, task by task, without bounds.

  A matching does its work by calling itself: a token that is made arrives below and makes tokens there, a
  token that goes takes along those below it, a full window lets facts go until there is room. Nothing in
  the tasks bounds this. A task follows the lists as they stand, wherever they lead, and what it calls is
  done before what comes after it.

  * `Task.work`: what a task changes at once, and the tasks that it calls.
  * `Runs`: tasks that come to an end, one after the other.
  * `Runs.unique`: they come to one end.
-/
import RuleNet.Matching.Facts

namespace RuleNet

open Matching (Extension)

/-- One call of the work of a matching. -/
inductive Task where
  /-- Walk up from a token to the root. -/
  | climb (t : TokenId)
  /-- A node makes a token. -/
  | emit (n : NodeId) (parent : TokenId) (ext : Extension)
  /-- A token arrives at a node. -/
  | arrive (n : NodeId) (left : TokenId)
  /-- A token goes with everything below it. -/
  | delete (t : TokenId)
  /-- What is left of a token goes, once everything below it has gone. -/
  | strip (t : TokenId) (token : Token)
  /-- A node takes back what it passed on. -/
  | withdraw (n : NodeId) (left : TokenId)
  /-- A result is made anew. -/
  | renew (n : NodeId) (left : TokenId) (result : Option Value)
  /-- The contributions to a result have changed. -/
  | refresh (n : NodeId) (left : TokenId)
  /-- A result is made anew if it differs. -/
  | settle (n : NodeId) (left : TokenId)
  /-- A fact goes with a left token. -/
  | meet (n : NodeId) (kind : NodeKind) (h : Handle) (left : TokenId)
  /-- A fact no longer goes with a left token. -/
  | part (n : NodeId) (kind : NodeKind) (h : Handle) (left : TokenId)
  /-- A node is told of a fact that has come. -/
  | assertRight (h : Handle) (n : NodeId)
  /-- A node is told of a fact that has gone. -/
  | retractRight (h : Handle) (n : NodeId)
  /-- A fact leaves one memory. -/
  | evict (a : AlphaId) (h : Handle)
  /-- The oldest facts leave a memory until it is not too full. -/
  | trim (a : AlphaId)
  /-- The nodes that some memories feed are told of a fact that has come. -/
  | spread (h : Handle) (entered : List AlphaId)
  /-- Facts that are too old leave one memory. -/
  | sweep (now : Moment) (a : AlphaId)
  /-- A fact comes. -/
  | assert (h : Handle) (now : Moment)
  /-- A fact goes. -/
  | retract (h : Handle)
  /-- Facts leave the windows that they are too old for. -/
  | expireWindows (now : Moment)
  /-- An update ends. -/
  | endUpdate

namespace Matching

/-- A matching that a token is missing from, and all else that there was of it is not. -/
def detach (m : Matching) (t : TokenId) : Matching := { m with tokens := m.tokens.erase t }

/-- A token goes from the nodes below, from the list of its fact and from its parent. -/
def strip (m : Matching) (net : Network) (t : TokenId) (token : Token) : Matching :=
  let m := match token.node with
    | none => m
    | some n =>
      let m := m.note ((net.terminalsOf n).map fun terminal => .broken terminal t)
      (net.childrenOf n).foldl (fun m child => m.removeLeft child t) m
  { m with
    tokensByFact := match token.handle with
      | some h => m.tokensByFact.unfile h t
      | none => m.tokensByFact
    tokens := match token.parent with
      | some parent => m.tokens.modify parent fun token =>
        { token with children := token.children.filter (· != t) }
      | none => m.tokens }

theorem dropToken_eq_strip {net : Network} {m : Matching} {t : TokenId} {token : Token}
    (h : m.tokens[t]? = some token) : m.dropToken net t = (m.detach t).strip net t token := by
  simp only [dropToken, h]
  rfl

/-- The first member in the order of a length window that has too many. -/
def excess? (net : Network) (m : Matching) (a : AlphaId) : Option Handle :=
  match (net.alpha? a).bind AlphaNode.window with
  | some (.length capacity) =>
    if capacity < (m.alpha a).facts.size then (m.alpha a).order.toList.head?.map Prod.snd else none
  | _ => none

end Matching

namespace Task

/-- What a task changes at once, after naming the tasks that it calls. -/
def work (net : Network) (store : WorkingMemory) : Task → Matching → List Task × Matching
  | climb t, m => (((m.tokens[t]?).bind Token.parent).toList.map climb, m)
  | emit n parent ext, m =>
    ((net.childrenOf n).map fun child => arrive child m.nextToken, m.addToken net n parent ext)
  | arrive n left, m =>
    let (extensions, m) := m.arrive net store n left
    (climb left :: extensions.map (emit n left), m)
  | delete t, m => match m.tokens[t]? with
    | none => ([], m)
    | some token => (token.children.map delete ++ [strip t token], m.detach t)
  | strip t token, m => ([], m.strip net t token)
  | withdraw n left, m =>
    let memory := m.node n
    match memory.outputs[left]? with
    | none => ([], m)
    | some out => ([delete out], m.setNode n { memory with outputs := memory.outputs.erase left })
  | renew n left result, m =>
    (withdraw n left :: result.toList.map fun value => emit n left (.result value), m)
  | refresh n left, m => match m.deferred with
    | some dirty => ([], { m with deferred := some (dirty.insert (n, left)) })
    | none => match net.kind? n, (m.node n).accumulators[left]? with
      | some (.accumulate _ _ having), some acc =>
        ([climb left, renew n left (m.gatedResult? store having left acc)], m)
      | _, _ => ([], m)
  | settle n left, m => match net.kind? n, (m.node n).accumulators[left]? with
    | some (.accumulate _ _ having), some acc =>
      let result := m.gatedResult? store having left acc
      (climb left :: if m.standing? n left == result then [] else [renew n left result], m)
    | _, _ => ([], m)
  | meet n kind h left, m => match kind with
    | .join _ => ([emit n left (.fact h)], m)
    | .absent _ =>
      let (first, m) := m.find n left h
      (if first then [withdraw n left] else [], m)
    | .present _ =>
      let (first, m) := m.find n left h
      (if first then [emit n left .nothing] else [], m)
    | .accumulate _ fold _ =>
      let memory := m.node n
      match memory.accumulators[left]? with
      | none => ([], m)
      | some acc =>
        ([refresh n left], m.setNode n { memory with
          accumulators :=
            memory.accumulators.insert left (acc.add h (Matching.contribution store fold h))
          foundBy := memory.foundBy.file h left })
    | .predicate _ _ => ([], m)
  | part n kind h left, m =>
    let memory := m.node n
    match kind with
    | .join _ | .predicate _ _ => ([], m)
    | .absent _ | .present _ => match memory.found[left]? with
      | none => ([], m)
      | some facts =>
        let rest := facts.erase h
        let m := m.setNode n { memory with found := memory.found.insert left rest }
        if !facts.contains h || !rest.isEmpty then ([], m)
        else match kind with
          | .absent _ => ([emit n left .nothing], m)
          | _ => ([withdraw n left], m)
    | .accumulate _ _ _ => match memory.accumulators[left]? with
      | none => ([], m)
      | some acc =>
        if acc.contains h then
          ([refresh n left], m.setNode n { memory with
            accumulators := memory.accumulators.insert left (acc.remove h) })
        else ([], m)
  | assertRight h n, m => match net.kind? n with
    | none => ([], m)
    | some kind => match kind.feed? with
      | none => ([], m)
      | some feed =>
        let candidates := m.leftCandidates store n feed h
        let lefts := candidates.filter fun left => m.passes store feed.tests left h
        (candidates.map climb ++ lefts.map (meet n kind h), m)
  | retractRight h n, m => match net.kind? n with
    | none => ([], m)
    | some kind =>
      let memory := m.node n
      ((memory.foundBy.get h).toList.map (part n kind h),
        m.setNode n { memory with foundBy := memory.foundBy.erase h })
  | evict a h, m => match store.fact? h with
    | none => ([], m)
    | some fact =>
      let m := m.leave a h fact
      let m := { m with memoriesOf := m.memoriesOf.modify h fun alphas => alphas.filter (· != a) }
      let doomed := (m.tokensByFact.get h).toList.filter fun t =>
        ((m.tokens[t]?).bind Token.node).any fun n =>
          (net.kind? n).any fun kind => kind.alpha? == some a
      (doomed.map delete ++ (Matching.watchers net a).map (retractRight h), m)
  | trim a, m => match m.excess? net a with
    | none => ([], m)
    | some oldest => ([evict a oldest, trim a], m)
  | spread h entered, m =>
    let targets := (entered.filter fun a => (m.alpha a).facts.contains h).flatMap net.successorsOf
    ((net.deepestFirst targets).map (assertRight h), m)
  | sweep now a, m => ((m.outdated net now a).map (evict a), m)
  | assert h now, m => match store.entry? h with
    | none => ([], m)
    | some entry =>
      let (entered, m) := Matching.offerAll net now h entry m (net.candidates entry.fact)
      (entered.map trim ++ [spread h entered],
        { m with memoriesOf := m.memoriesOf.insert h entered })
  | retract h, m => match store.fact? h with
    | none => ([], m)
    | some fact =>
      let alphas := (m.memoriesOf[h]?).getD []
      let m := { m with memoriesOf := m.memoriesOf.erase h }
      let m := alphas.foldl (fun m a => m.leave a h fact) m
      ((m.tokensByFact.get h).toList.map delete ++
        alphas.flatMap fun a => (Matching.watchers net a).map (retractRight h),
        { m with tokensByFact := m.tokensByFact.erase h })
  | expireWindows now, m => ((List.range net.alphas.size).map (sweep now), m)
  | endUpdate, m => match m.deferred with
    | none => ([], m)
    | some dirty =>
      (dirty.toList.map fun result => settle result.1 result.2, { m with deferred := none })

end Task

/-- Tasks come to an end, one after the other, each with all that it calls. -/
inductive Runs (net : Network) (store : WorkingMemory) : List Task → Matching → Matching → Prop
  | done (m : Matching) : Runs net store [] m m
  | step {task : Task} {rest : List Task} {m m' : Matching}
    (h : Runs net store ((task.work net store m).1 ++ rest) (task.work net store m).2 m') :
    Runs net store (task :: rest) m m'

namespace Runs

variable {net : Network} {store : WorkingMemory} {ts us : List Task} {m m' m'' : Matching}

/-- Tasks come to one end. -/
theorem unique (h : Runs net store ts m m') (h' : Runs net store ts m m'') : m' = m'' := by
  induction h with
  | done => cases h'; rfl
  | step _ ih =>
    cases h' with
    | step h' => exact ih h'

theorem append (h : Runs net store ts m m') (h' : Runs net store us m' m'') :
    Runs net store (ts ++ us) m m'' := by
  induction h with
  | done => exact h'
  | step _ ih => exact .step (List.append_assoc .. ▸ ih h')

end Runs

end RuleNet
