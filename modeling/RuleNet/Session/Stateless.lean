/-
  Stateless runs: a session for one set of facts, made for the run and dropped after it.
-/
import RuleNet.Session.Fire

namespace RuleNet

/-- How stateless runs of a rule base go. -/
structure StatelessRunner where
  base : RuleBase
  settings : Settings
  /-- The most activations that one run may fire. -/
  limit : Option Nat

/-- What is left of a run. -/
structure RunResult where
  fired : Nat
  /-- The rules that fired, in order. -/
  firedRules : List String
  facts : List (Handle × Fact)
  globals : Entries Global

namespace StatelessRunner

/-- Insert facts one after the other; the first error ends it. -/
def insertAll (s : Session) : List Fact → Except EngineError Session
  | [] => .ok s
  | fact :: rest => match s.insert fact with
    | (.ok _, s) => insertAll s rest
    | (.error e, _) => .error e

/-- Prepare a new session, insert the facts, and fire. -/
def executeWith (r : StatelessRunner) (reading : Moment) (facts : List Fact)
    (setup : Session → Except EngineError Unit × Session) : Except EngineError RunResult := do
  let fresh := Session.start r.base r.settings reading
  match setup fresh with
  | (.error e, _) => .error e
  | (.ok (), s) =>
    let s ← insertAll s facts
    match s.fireAll r.limit with
    | (.error e, _) => .error e
    | (.ok fired, s) =>
      let followed := s.journal.toList.drop fresh.journal.size
      .ok
        { fired
          firedRules := (RuleNet.firedRules followed).map s.ruleName
          facts := s.store.toList
          globals := s.globals }

/-- Insert the facts into a new session, and fire. -/
def execute (r : StatelessRunner) (reading : Moment) (facts : List Fact) :
    Except EngineError RunResult :=
  r.executeWith reading facts fun s => (.ok (), s)

end StatelessRunner

end RuleNet
