/-
  Settings of a session.

  * `Settings` and the kinds of its values, each with the word that configuration uses for it.
  * `Settings.override`: settings replaced one by one from texts, for which blanks around a word and
    the case of ASCII letters do not matter.
-/
import RuleNet.Error
import RuleNet.Text.Blank
import RuleNet.Time.Span

namespace RuleNet

/-! ## Kinds -/

/-- How inserted facts are told apart. -/
inductive IdentityMode where
  /-- Every insertion is a new fact. -/
  | identity
  /-- An insertion of the value of a live fact is that fact. -/
  | equality
  deriving DecidableEq, Inhabited

/-- What time a session goes by. -/
inductive ClockMode where
  | realtime
  /-- Time stands still unless it is advanced. -/
  | manual
  deriving DecidableEq, Inhabited

/-- How an update shows to accumulated results. -/
inductive UpdatePolicy where
  /-- As a retraction and an insertion, with all results between. -/
  | stepwise
  /-- Once, and only if the result differs. -/
  | coalesce
  deriving DecidableEq, Inhabited

/-- Which of two activations of one salience fires first. -/
inductive ConflictStrategy where
  | oldestFirst
  | newestFirst
  deriving DecidableEq, Inhabited

/-- The settings of a session. -/
structure Settings where
  identityMode : IdentityMode
  clock : ClockMode
  updatePolicy : UpdatePolicy
  conflictStrategy : ConflictStrategy
  /-- The first reading of a manual clock. -/
  clockStart : Moment
  deriving DecidableEq, Inhabited

namespace Settings

def standard : Settings := ⟨.identity, .realtime, .stepwise, .oldestFirst, 0⟩

end Settings

/-! ## Words -/

def IdentityMode.word : IdentityMode → String
  | identity => "identity"
  | equality => "equality"

def ClockMode.word : ClockMode → String
  | realtime => "realtime"
  | manual => "pseudo"

def UpdatePolicy.word : UpdatePolicy → String
  | stepwise => "retract_insert"
  | coalesce => "coalesce"

def ConflictStrategy.word : ConflictStrategy → String
  | oldestFirst => "salience_fifo"
  | newestFirst => "salience_lifo"

/-- The kind that a word stands for. -/
def IdentityMode.ofWord? (s : String) : Option IdentityMode :=
  [identity, equality].find? (·.word == s)

def ClockMode.ofWord? (s : String) : Option ClockMode := [realtime, manual].find? (·.word == s)

def UpdatePolicy.ofWord? (s : String) : Option UpdatePolicy :=
  [stepwise, coalesce].find? (·.word == s)

def ConflictStrategy.ofWord? (s : String) : Option ConflictStrategy :=
  [oldestFirst, newestFirst].find? (·.word == s)

/-! ## Overrides -/

/-- Read a word as it is written by hand. -/
def readWord {α : Type} (setting : Setting) (ofWord? : String → Option α) (s : String) :
    Except ConfigurationDefect α :=
  let word := lowerAscii (trimBlanks s)
  match ofWord? word with
  | some a => .ok a
  | none => .error (.unrecognised setting word)

/-- An integer of 64 bits: an optional sign and digits, nothing else. -/
def readInteger? (s : String) : Option Int :=
  let digits (cs : List Char) : Option Nat :=
    if !cs.isEmpty && cs.all Char.isDigit then
      some (cs.foldl (fun n c => 10 * n + (c.toNat - '0'.toNat)) 0)
    else none
  let value : Option Int := match s.toList with
    | '-' :: cs => (digits cs).map fun n => -(n : Int)
    | '+' :: cs => (digits cs).map Int.ofNat
    | cs => (digits cs).map Int.ofNat
  value.filter Integer64.holds

/-- Replace the settings for which a text is given; the first text that cannot be read, in order of
    the settings, is an error. -/
def Settings.override (settings : Settings) (given : Setting → Option String) :
    Except ConfigurationDefect Settings := do
  let replace {α : Type} (setting : Setting) (old : α)
      (read : String → Except ConfigurationDefect α) : Except ConfigurationDefect α :=
    match given setting with
    | some s => read s
    | none => .ok old
  let identityMode ← replace .identityMode settings.identityMode
    (readWord .identityMode IdentityMode.ofWord?)
  let clock ← replace .clock settings.clock (readWord .clock ClockMode.ofWord?)
  let updatePolicy ← replace .updatePolicy settings.updatePolicy
    (readWord .updatePolicy UpdatePolicy.ofWord?)
  let conflictStrategy ← replace .conflictStrategy settings.conflictStrategy
    (readWord .conflictStrategy ConflictStrategy.ofWord?)
  let clockStart ← replace .clockStart settings.clockStart fun s => match readInteger? s with
    | some i => .ok i
    | none => .error (.notAnInteger .clockStart s)
  .ok ⟨identityMode, clock, updatePolicy, conflictStrategy, clockStart⟩

end RuleNet
