/-
  The equalities of values.

  * `==` on values: facts are equal by it. It differs from identity on doubles only, where it is the
    numeric one: the zeros are equal, and what is not a number equals nothing, itself included.
  * `Value.looseEq`: constraints compare by it. Integers and doubles are equal by value.
  * `Value.indexKey`: values that are loosely equal have keys that are equal by `==`.
-/
import RuleNet.Value.Basic

namespace RuleNet.Value

/-! ## Equality of facts -/

mutual

/-- Equality within one kind. -/
def equal : Value → Value → Bool
  | null, null => true
  | boolean a, boolean b => a == b
  | integer i, integer j => i == j
  | double x, double y => x.equal y
  | text s, text t => s == t
  | date t, date u => decide (t = u)
  | array xs, array ys => equalItems xs ys
  | object xs, object ys => equalEntries xs ys
  | _, _ => false

def equalItems : List Value → List Value → Bool
  | [], [] => true
  | x :: xs, y :: ys => equal x y && equalItems xs ys
  | _, _ => false

def equalEntries : List (String × Value) → List (String × Value) → Bool
  | [], [] => true
  | (k, x) :: xs, (l, y) :: ys => k == l && equal x y && equalEntries xs ys
  | _, _ => false

end

instance : BEq Value := ⟨equal⟩

/-! ## Equality of constraints -/

mutual

/-- Equality that compares numbers by value, at every depth. -/
def looseEq : Value → Value → Bool
  | integer i, integer j => i == j
  | integer i, double y => (Binary64.ofInt i.toInt).equal y
  | double x, integer j => x.equal (Binary64.ofInt j.toInt)
  | double x, double y => x.equal y
  | array xs, array ys => looseEqItems xs ys
  | object xs, object ys => looseEqEntries xs ys
  | v, w => equal v w

def looseEqItems : List Value → List Value → Bool
  | [], [] => true
  | x :: xs, y :: ys => looseEq x y && looseEqItems xs ys
  | _, _ => false

def looseEqEntries : List (String × Value) → List (String × Value) → Bool
  | [], [] => true
  | (k, x) :: xs, (l, y) :: ys => k == l && looseEq x y && looseEqEntries xs ys
  | _, _ => false

end

/-! ## Index keys -/

/-- Whether a double is a whole number in the range of integers. -/
def isWhole (x : Binary64) : Bool :=
  x.isIntegral && Integer64.holds x.truncate

mutual

/-- The form under which a value is filed: whole doubles become integers. -/
def indexKey : Value → Value
  | double x => if isWhole x then integer (Int64.ofInt x.truncate) else double x
  | array items => array (indexKeyItems items)
  | object entries => object (indexKeyEntries entries)
  | v => v

def indexKeyItems : List Value → List Value
  | [] => []
  | x :: xs => indexKey x :: indexKeyItems xs

def indexKeyEntries : List (String × Value) → List (String × Value)
  | [] => []
  | (k, x) :: xs => (k, indexKey x) :: indexKeyEntries xs

end

end RuleNet.Value
