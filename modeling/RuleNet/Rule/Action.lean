/-
  Actions: what a rule does when it fires, as a tree of requests to the session.

  * `Action`: the next request, and what to do with each possible answer. An action is a finite
    tree along every run, so running one always ends.
  * `Script`: actions that compute a value, composed in sequence; a failing request ends the script.
  * `Global`: the values that the actions of a session share under names.
-/
import RuleNet.Error
import RuleNet.Fact.Binding

namespace RuleNet

/-- A value shared by the actions of a session. -/
inductive Global where
  | integer (i : Int64)
  | text (s : String)
  | texts (items : List String)
  deriving DecidableEq, Inhabited

/-- What a rule does when it fires. -/
inductive Action where
  | done
  | fail (error : ActionError)
  | insert (fact : Fact) (next : Except EngineError Handle → Action)
  | update (h : Handle) (fact : Fact) (next : Except EngineError Unit → Action)
  | modify (h : Handle) (change : Fact → Fact) (next : Except EngineError Unit → Action)
  | retract (h : Handle) (next : Except EngineError Fact → Action)
  | look (h : Handle) (next : Option Fact → Action)
  | focus (group : String) (next : Action)
  | popFocus (next : Option String → Action)
  | clearGroup (group : String) (next : Nat → Action)
  | halt (next : Action)
  | now (next : Moment → Action)
  | query (name : String) (params : List Value) (next : Except EngineError (List Row) → Action)
  | readGlobal (name : String) (next : Option Global → Action)
  | writeGlobal (name : String) (value : Global) (next : Action)

/-- What an action knows of the match it fires for. -/
structure Firing where
  rule : String
  binding : Binding

/-! ## Scripts -/

/-- An action that hands a value on. -/
def Script (α : Type) := (α → Action) → Action

namespace Script

variable {α β : Type}

instance : Monad Script where
  pure a := fun next => next a
  bind s f := fun next => s fun a => f a next

/-- The action of a script. -/
def run (s : Script Unit) : Action := s fun _ => .done

/-- End the script with an error. -/
def fail (error : ActionError) : Script α := fun _ => .fail error

/-- End the script with a message. -/
def failWith (message : String) : Script α := fail ⟨message, none⟩

/-- Go on with the answer of a request, or end with its error. -/
def require : Except EngineError α → Script α
  | .ok a => pure a
  | .error e => failWith e.message

def insert (fact : Fact) : Script Handle :=
  fun next => .insert fact fun answer => require answer next

def update (h : Handle) (fact : Fact) : Script Unit :=
  fun next => .update h fact fun answer => require answer next

def modify (h : Handle) (change : Fact → Fact) : Script Unit :=
  fun next => .modify h change fun answer => require answer next

def retract (h : Handle) : Script Fact := fun next => .retract h fun answer => require answer next

/-- The current value of a fact, if it is live. -/
def look (h : Handle) : Script (Option Fact) := fun next => .look h next

def focus (group : String) : Script Unit := fun next => .focus group (next ())

def popFocus : Script (Option String) := fun next => .popFocus next

def clearGroup (group : String) : Script Nat := fun next => .clearGroup group next

def halt : Script Unit := fun next => .halt (next ())

def now : Script Moment := fun next => .now next

def query (name : String) (params : List Value) : Script (List Row) :=
  fun next => .query name params fun answer => require answer next

def readGlobal (name : String) : Script (Option Global) := fun next => .readGlobal name next

def writeGlobal (name : String) (value : Global) : Script Unit :=
  fun next => .writeGlobal name value (next ())

/-- The fact that a variable of the match is bound to. -/
def handle (firing : Firing) (name : String) : Script Handle :=
  match firing.binding.handle? name with
  | some h => pure h
  | none => failWith
    ("variable '" ++ name ++ "' is not bound to a fact in rule '" ++ firing.rule ++ "'")

/-- The current value of the fact that a variable of the match is bound to. -/
def fact (firing : Firing) (name : String) : Script Fact := do
  let h ← handle firing name
  match ← look h with
  | some fact => pure fact
  | none => failWith ("fact " ++ h.toText ++ " is no longer live")

end Script

end RuleNet
