/-
  Errors: why an operation on a rule base or a session failed.

  * `EngineError.message` is the one place where they are put into words.
  * `ActionError`: what an action failed with, the outermost text first.
-/
import RuleNet.Rule.Defect

namespace RuleNet

/-- The failure of an action: its message, and the message it wraps. -/
structure ActionError where
  message : String
  cause : Option String
  deriving DecidableEq, Inhabited

/-- All messages of a failure, from the outermost inwards. -/
def ActionError.chain (e : ActionError) : String := match e.cause with
  | some cause => e.message ++ ": " ++ cause
  | none => e.message

/-- What can be set for a session. -/
inductive Setting where
  | identityMode
  | clock
  | updatePolicy
  | conflictStrategy
  | clockStart
  deriving DecidableEq, Inhabited

/-- The name of a setting in configuration files. -/
def Setting.name : Setting → String
  | identityMode => "identity_mode"
  | clock => "clock"
  | updatePolicy => "update_policy"
  | conflictStrategy => "conflict_strategy"
  | clockStart => "pseudo_clock_start_ms"

/-- Why a configuration was refused. -/
inductive ConfigurationDefect where
  /-- The file is not well-formed, or a setting in it has a value of the wrong kind. -/
  | malformedFile
  | unrecognised (setting : Setting) (text : String)
  | notAnInteger (setting : Setting) (text : String)
  deriving DecidableEq

namespace ConfigurationDefect

def setting? : ConfigurationDefect → Option Setting
  | malformedFile => none
  | unrecognised setting _ => some setting
  | notAnInteger setting _ => some setting

def message : ConfigurationDefect → String
  | malformedFile => "malformed configuration file"
  | unrecognised _ text => "unrecognised value '" ++ text ++ "'"
  | notAnInteger _ text => "not an integer: " ++ text

end ConfigurationDefect

/-- Why an operation failed. -/
inductive EngineError where
  | rejected (problems : List Problem)
  | unknownHandle (h : Handle)
  | unknownQuery (name : String)
  | queryArity (name : String) (expected actual : Nat)
  | schema (type : String) (defect : SchemaDefect)
  | realtimeClock
  | configuration (defect : ConfigurationDefect)
  | action (rule : String) (error : ActionError)
  /-- A firing cycle did not end, and was given up. -/
  | unfinished (fired : Nat)
  | sessionClosed
  deriving DecidableEq

namespace EngineError

/-- The kind of an error. -/
def category : EngineError → String
  | rejected _ => "compile"
  | unknownHandle _ => "unknown_handle"
  | unknownQuery _ => "query"
  | queryArity _ _ _ => "query"
  | schema _ _ => "schema"
  | realtimeClock => "clock"
  | configuration _ => "configuration"
  | action _ _ => "action"
  | unfinished _ => "unfinished"
  | sessionClosed => "session"

/-- Whether the session can be used after the error. -/
def isRecoverable : EngineError → Bool
  | sessionClosed => false
  | _ => true

def message : EngineError → String
  | rejected problems =>
    "Compile error: " ++ toString problems.length ++ " problem(s), first: " ++
      (problems.head?.map Problem.message).getD ""
  | unknownHandle h => "Unknown fact handle " ++ h.toText
  | unknownQuery name => "Unknown query '" ++ name ++ "'"
  | queryArity name expected actual =>
    "Query '" ++ name ++ "' expects " ++ toString expected ++ " parameter(s), got " ++
      toString actual
  | schema type defect => "Schema error for '" ++ type ++ "': " ++ defect.message
  | realtimeClock => "Clock error: cannot advance a realtime clock"
  | configuration defect => "Configuration error: " ++ defect.message
  | action rule error => "Action of rule '" ++ rule ++ "' failed: " ++ error.message
  | unfinished fired => "Firing cycle given up after " ++ toString fired ++ " firing(s)"
  | sessionClosed => "Session is closed"

end EngineError

end RuleNet
