/-
  Documents: the data that facts arrive in and leave as, before any field has a type.

  * `Document.ofValue` and `Document.read` convert between documents and values. Instants leave
    as their RFC 3339 texts and what is not a finite number as null, so these two do not come back.
  * `Fact.ofDocument`: a fact whose fields are the entries of an object.
-/
import RuleNet.Error
import RuleNet.Value.Basic

namespace RuleNet

/-- Untyped data. Integers go from `-2^63` to `2^64 - 1`, doubles are finite, and the entries of an
    object stand in the order of their names. -/
inductive Document where
  | null
  | boolean (b : Bool)
  | integer (n : Int)
  | double (x : Binary64)
  | text (s : String)
  | array (items : List Document)
  | object (entries : List (String × Document))
  deriving Inhabited

namespace Document

/-- The object with the given entries, in any order. -/
def ofEntries (entries : List (String × Document)) : Document := .object (Entries.ofList entries)

/-- The document of a double: null stands for what is not a finite number. -/
def ofDouble (x : Binary64) : Document := if x.isFinite then .double x else .null

mutual

/-- The document of a value. -/
def ofValue : Value → Document
  | .null => .null
  | .boolean b => .boolean b
  | .integer i => .integer i.toInt
  | .double x => ofDouble x
  | .text s => .text s
  | .date t => .text (t.rfc3339 "+00:00")
  | .array items => .array (ofItems items)
  | .object entries => .object (ofFields entries)

def ofItems : List Value → List Document
  | [] => []
  | x :: xs => ofValue x :: ofItems xs

def ofFields : List (String × Value) → List (String × Document)
  | [] => []
  | (k, x) :: xs => (k, ofValue x) :: ofFields xs

end

/-- The greatest integer of a document. -/
def greatestInteger : Int := 18446744073709551615

/-- The value of an integer: one too large for 64 bits becomes a double. Documents have no others. -/
def readInteger (n : Int) : Except String Value :=
  if Integer64.holds n then .ok (.integer (Int64.ofInt n))
  else if 0 ≤ n ∧ n ≤ greatestInteger then .ok (.double (Binary64.ofInt n))
  else .error ("Unsupported number value: " ++ toString n)

mutual

/-- The value of a document, or what is wrong with the first part that has none. -/
def read : Document → Except String Value
  | .null => .ok .null
  | .boolean b => .ok (.boolean b)
  | .integer n => readInteger n
  | .double x => .ok (.double x)
  | .text s => .ok (.text s)
  | .array items => (readItems items).map .array
  | .object entries => (readFields entries).map .object

def readItems : List Document → Except String (List Value)
  | [] => .ok []
  | x :: xs => do return (← read x) :: (← readItems xs)

def readFields : List (String × Document) → Except String (List (String × Value))
  | [] => .ok []
  | (k, x) :: xs => do return (k, ← read x) :: (← readFields xs)

end

/-- The value of a document that has one. -/
def toValue (d : Document) : Value := d.read.toOption.getD .null

end Document

namespace Fact

/-- Fields with the values of documents, unless one of these has none. -/
def readFields : List (String × Document) → Except SchemaDefect (Entries Value)
  | [] => .ok []
  | (field, d) :: rest => do
    let value ← d.read.mapError (.unreadable field)
    return (field, value) :: (← readFields rest)

/-- The fact whose fields are the entries of an object. -/
def ofDocument (type : String) : Document → Except EngineError Fact
  | .object entries => ((readFields entries).map (Fact.mk type)).mapError (.schema type)
  | _ => .error (.schema type .notAnObject)

end Fact

end RuleNet
