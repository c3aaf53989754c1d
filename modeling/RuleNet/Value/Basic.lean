/-
  Values: what the field of a fact can hold.

  * `Value`: null, booleans, integers of 64 bits, doubles, strings, instants, arrays, objects.
  * The views `asDouble?`, `asInteger?`, `asText?`, `asMoment?` read a value as something else.
  * `Value.identical` decides identity, which tells `0.0` from `-0.0`; the equality of
    facts, `==`, does not.
-/
import RuleNet.Data.Entries
import RuleNet.Number.Binary64
import RuleNet.Time.Instant
import RuleNet.Time.Span

namespace RuleNet

/-- A value of a field. The entries of an object stand in the order of their names. -/
inductive Value where
  | null
  | boolean (b : Bool)
  | integer (i : Int64)
  | double (x : Binary64)
  | text (s : String)
  | date (t : Instant)
  | array (items : List Value)
  | object (entries : List (String × Value))
  deriving Inhabited

namespace Value

/-! ## Views -/

/-- The object with the given entries, in any order; of a repeated name the last one stays. -/
def ofEntries (entries : List (String × Value)) : Value := .object (Entries.ofList entries)

/-- The name of the kind of a value. -/
def kindName : Value → String
  | null => "null"
  | boolean _ => "boolean"
  | integer _ => "integer"
  | double _ => "float"
  | text _ => "string"
  | date _ => "date"
  | array _ => "array"
  | object _ => "object"

def isNull : Value → Bool
  | null => true
  | _ => false

/-- A number as a double. -/
def asDouble? : Value → Option Binary64
  | integer i => some (Binary64.ofInt i.toInt)
  | double x => some x
  | _ => none

/-- An integer, or a double without a fraction, cut to the range of integers. -/
def asInteger? : Value → Option Int64
  | integer i => some i
  | double x => if x.isIntegral then some (Integer64.nearest x.truncate) else none
  | _ => none

def asText? : Value → Option String
  | text s => some s
  | _ => none

/-- An integer as milliseconds since the start of 1970, or an instant. -/
def asMoment? : Value → Option Moment
  | integer i => some i.toInt
  | date t => some t.epochMillis
  | _ => none

/-! ## Identity -/

mutual

/-- Whether two values are the same in every bit. -/
def identical : Value → Value → Bool
  | null, null => true
  | boolean a, boolean b => a == b
  | integer i, integer j => i == j
  | double x, double y => decide (x = y)
  | text s, text t => s == t
  | date t, date u => decide (t = u)
  | array xs, array ys => identicalItems xs ys
  | object xs, object ys => identicalEntries xs ys
  | _, _ => false

def identicalItems : List Value → List Value → Bool
  | [], [] => true
  | x :: xs, y :: ys => identical x y && identicalItems xs ys
  | _, _ => false

def identicalEntries : List (String × Value) → List (String × Value) → Bool
  | [], [] => true
  | (k, x) :: xs, (l, y) :: ys => k == l && identical x y && identicalEntries xs ys
  | _, _ => false

end

mutual

theorem identical_iff : ∀ v w : Value, v.identical w = true ↔ v = w
  | null, w => by cases w <;> simp [identical]
  | boolean _, w => by cases w <;> simp [identical]
  | integer _, w => by cases w <;> simp [identical]
  | double _, w => by cases w <;> simp [identical]
  | text _, w => by cases w <;> simp [identical]
  | date _, w => by cases w <;> simp [identical]
  | array xs, w => by cases w <;> simp [identical, identicalItems_iff xs]
  | object xs, w => by cases w <;> simp [identical, identicalEntries_iff xs]

theorem identicalItems_iff : ∀ xs ys : List Value, identicalItems xs ys = true ↔ xs = ys
  | [], ys => by cases ys <;> simp [identicalItems]
  | x :: xs, ys => by
    cases ys <;> simp [identicalItems, identical_iff x, identicalItems_iff xs]

theorem identicalEntries_iff :
    ∀ xs ys : List (String × Value), identicalEntries xs ys = true ↔ xs = ys
  | [], ys => by cases ys <;> simp [identicalEntries]
  | (k, x) :: xs, ys => by
    cases ys with
    | nil => simp [identicalEntries]
    | cons y ys =>
      obtain ⟨l, y⟩ := y
      simp [identicalEntries, identical_iff x, identicalEntries_iff xs]

end

instance : DecidableEq Value := fun v w => decidable_of_iff _ (identical_iff v w)

end Value

end RuleNet
