/-
  Settings files: TOML documents with an entry for each setting that is not the standard one.

  * `Settings.ofTable?`: names that are no setting are passed over.
-/
import RuleNet.Settings
import RuleNet.Toml.Document

namespace RuleNet

namespace Toml.Node

/-- An array or a table with nothing in it. -/
def isHollow : Node → Bool
  | array [] => true
  | table _ [] => true
  | tables [] => true
  | _ => false

/-- A word, written as a string, or as a table whose only entry has that name and holds nothing. -/
def word? : Node → Option String
  | text s => some s
  | table _ [(name, body)] => if body.isHollow then some name else none
  | _ => none

def integer? : Node → Option Int
  | integer i => some i
  | _ => none

end Toml.Node

namespace Settings

/-- The settings that a table gives; a missing one keeps its standard value. -/
def ofTable? (table : Toml.Table) : Option Settings := do
  let read {α : Type} (setting : Setting) (ofNode? : Toml.Node → Option α) (standard : α) :
      Option α := match Entries.find? setting.name table with
    | some node => ofNode? node
    | none => some standard
  let word {α : Type} (ofWord? : String → Option α) (node : Toml.Node) : Option α :=
    node.word?.bind ofWord?
  let identityMode ← read .identityMode (word IdentityMode.ofWord?) standard.identityMode
  let clock ← read .clock (word ClockMode.ofWord?) standard.clock
  let updatePolicy ← read .updatePolicy (word UpdatePolicy.ofWord?) standard.updatePolicy
  let conflictStrategy ←
    read .conflictStrategy (word ConflictStrategy.ofWord?) standard.conflictStrategy
  let clockStart ← read .clockStart Toml.Node.integer? standard.clockStart
  some ⟨identityMode, clock, updatePolicy, conflictStrategy, clockStart⟩

/-- The settings of a file. -/
def ofFile (text : String) : Except ConfigurationDefect Settings :=
  match (Toml.Table.ofText text).bind ofTable? with
  | some settings => .ok settings
  | none => .error .malformedFile

end Settings

end RuleNet
