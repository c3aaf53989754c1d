/-
  The orders of values.

  * `Value.partialCompare`: the order of constraints; it relates numbers to numbers and otherwise
    only values of one kind, and never containers.
  * `Value.totalCompare`: a linear order of all values, by kind first; numbers interleave, and an
    integer comes just before the double of the same value.
-/
import RuleNet.Value.Basic

namespace RuleNet.Value

/-- The order that comparisons in constraints use. -/
def partialCompare : Value → Value → Option Ordering
  | null, null => some .eq
  | boolean a, boolean b => some (compare a b)
  | integer i, integer j => some (compare i.toInt j.toInt)
  | integer i, double y => (Binary64.ofInt i.toInt).partialCompare y
  | double x, integer j => x.partialCompare (Binary64.ofInt j.toInt)
  | double x, double y => x.partialCompare y
  | text s, text t => some (compare s t)
  | date t, date u => some (t.compare u)
  | _, _ => none

/-- The place of a kind in the total order; numbers are one kind. -/
def rank : Value → Nat
  | null => 0
  | boolean _ => 1
  | integer _ => 2
  | double _ => 2
  | text _ => 3
  | date _ => 4
  | array _ => 5
  | object _ => 6

mutual

/-- The order of ordered collections. -/
def totalCompare : Value → Value → Ordering
  | integer i, integer j => compare i.toInt j.toInt
  | integer i, double y => ((Binary64.ofInt i.toInt).totalCompare y).then .lt
  | double x, integer j => (x.totalCompare (Binary64.ofInt j.toInt)).then .gt
  | double x, double y => x.totalCompare y
  | boolean a, boolean b => compare a b
  | text s, text t => compare s t
  | date t, date u => t.compare u
  | array xs, array ys => totalCompareItems xs ys
  | object xs, object ys => totalCompareEntries xs ys
  | v, w => compare v.rank w.rank

/-- Item by item; a list comes after the lists it extends. -/
def totalCompareItems : List Value → List Value → Ordering
  | [], [] => .eq
  | [], _ :: _ => .lt
  | _ :: _, [] => .gt
  | x :: xs, y :: ys => (totalCompare x y).then (totalCompareItems xs ys)

/-- Entry by entry, each by name and then by value. -/
def totalCompareEntries : List (String × Value) → List (String × Value) → Ordering
  | [], [] => .eq
  | [], _ :: _ => .lt
  | _ :: _, [] => .gt
  | (k, x) :: xs, (l, y) :: ys =>
    ((compare k l).then (totalCompare x y)).then (totalCompareEntries xs ys)

end

/-- Ascending in the total order; values that compare equal keep their order. -/
def sort (values : List Value) : List Value :=
  values.mergeSort fun v w => totalCompare v w != .gt

end RuleNet.Value
