/-
  Working memory: the live facts of a session under their handles.

  * `WorkingMemory.insert`, `replace?`, `remove?`: the changes; handles are given out once.
  * `WorkingMemory.findEqual?`: in equality mode, the oldest live fact of a given value.
  * `WorkingMemory.toList`, `ofType`: the live facts in order of their handles.
-/
import RuleNet.Data.Keyed
import RuleNet.Error
import RuleNet.Settings

namespace RuleNet

/-- A fact, when it happened, and how often it was changed. -/
structure Entry where
  fact : Fact
  moment : Moment
  generation : Nat
  deriving Inhabited, DecidableEq

/-- The live facts of a session. -/
structure WorkingMemory where
  mode : IdentityMode
  entries : Std.ExtTreeMap Handle Entry
  /-- The facts of each value, kept in equality mode only. -/
  byValue : Buckets Fact
  byType : Buckets String
  nextHandle : Handle

namespace WorkingMemory

def empty (mode : IdentityMode) : WorkingMemory := ⟨mode, ∅, [], [], 1⟩

/-! ## Looking -/

def entry? (memory : WorkingMemory) (h : Handle) : Option Entry := memory.entries[h]?

def fact? (memory : WorkingMemory) (h : Handle) : Option Fact := (memory.entry? h).map Entry.fact

def moment? (memory : WorkingMemory) (h : Handle) : Option Moment :=
  (memory.entry? h).map Entry.moment

def contains (memory : WorkingMemory) (h : Handle) : Bool := memory.entries.contains h

def size (memory : WorkingMemory) : Nat := memory.entries.size

/-- The value of a field of a live fact; null if there is no such field or no such fact. -/
def valueOf (memory : WorkingMemory) (h : Handle) (field : String) : Value :=
  match memory.fact? h with
  | some fact => fact.value field
  | none => .null

/-- The live facts in order of their handles. -/
def toList (memory : WorkingMemory) : List (Handle × Fact) :=
  memory.entries.toList.map fun entry => (entry.1, entry.2.fact)

/-- The live facts of one type in order of their handles. -/
def ofType (memory : WorkingMemory) (type : String) : List (Handle × Fact) :=
  (memory.byType.get type).toList.filterMap fun h => (memory.fact? h).map (h, ·)

/-- The oldest live fact equal to a given one, in equality mode. -/
def findEqual? (memory : WorkingMemory) (fact : Fact) : Option Handle := match memory.mode with
  | .identity => none
  | .equality => (memory.byValue.get fact).min?

/-! ## Changing -/

/-- Store a new fact; its handle is the `nextHandle` of before. -/
def insert (memory : WorkingMemory) (fact : Fact) (moment : Moment) : WorkingMemory :=
  let h := memory.nextHandle
  { memory with
    entries := memory.entries.insert h ⟨fact, moment, 0⟩
    byValue := if memory.mode = .equality then memory.byValue.file fact h else memory.byValue
    byType := memory.byType.file fact.type h
    nextHandle := h + 1 }

/-- Change the value of a live fact within its type; the previous entry is returned. -/
def replace? (memory : WorkingMemory) (h : Handle) (fact : Fact) (moment : Moment) :
    Except EngineError (Entry × WorkingMemory) :=
  match memory.entry? h with
  | none => .error (.unknownHandle h)
  | some previous =>
    if previous.fact.type ≠ fact.type then
      .error (.schema previous.fact.type (.typeChange h fact.type))
    else
      .ok (previous, { memory with
        entries := memory.entries.insert h ⟨fact, moment, previous.generation + 1⟩
        byValue :=
          if memory.mode = .equality then (memory.byValue.unfile previous.fact h).file fact h
          else memory.byValue })

/-- Remove a live fact and return its entry. -/
def remove? (memory : WorkingMemory) (h : Handle) : Except EngineError (Entry × WorkingMemory) :=
  match memory.entry? h with
  | none => .error (.unknownHandle h)
  | some previous =>
    .ok (previous, { memory with
      entries := memory.entries.erase h
      byValue :=
        if memory.mode = .equality then memory.byValue.unfile previous.fact h else memory.byValue
      byType := memory.byType.unfile previous.fact.type h })

end WorkingMemory

end RuleNet
