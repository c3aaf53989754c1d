/-
  Accumulators: a fold of the values of facts that come and go.

  An accumulator remembers the value that each fact added, so that taking a fact away takes away
  just that, whatever the fact holds by then.

  * `Bag`: an ordered collection with repetitions, for `least`, `greatest` and `distinct`.
  * `Accumulator.add` and `Accumulator.remove`: a fact comes or goes; a fact that comes again
    replaces what it added before.
  * `Accumulator.result?`: the folded value; the least, the greatest and the average of nothing are
    undefined, the sum of nothing is `0`.
-/
import RuleNet.Data.Keyed
import RuleNet.Fact.Basic
import RuleNet.Rule.Pattern
import RuleNet.Value.Order

namespace RuleNet

/-! ## Ordered collections with repetitions -/

/-- Values in ascending order, each with the number of times it is in the collection. -/
abbrev Bag := List (Value × Nat)

namespace Bag

/-- Put a value in once more. -/
def add (v : Value) : Bag → Bag
  | [] => [(v, 1)]
  | (w, n) :: rest => match v.totalCompare w with
    | .lt => (v, 1) :: (w, n) :: rest
    | .eq => (w, n + 1) :: rest
    | .gt => (w, n) :: add v rest

/-- Take a value out once; one that is not there changes nothing. -/
def remove (v : Value) : Bag → Bag
  | [] => []
  | (w, n) :: rest => match v.totalCompare w with
    | .lt => (w, n) :: rest
    | .eq => if n ≤ 1 then rest else (w, n - 1) :: rest
    | .gt => (w, n) :: remove v rest

/-- The values without repetitions. -/
def values (bag : Bag) : List Value := bag.map Prod.fst

end Bag

/-! ## Accumulators -/

/-- The running state of one fold. -/
structure Accumulator where
  fold : Fold
  /-- What each fact added. -/
  contributions : Std.ExtTreeMap Handle Value
  /-- The exact sum of the integers. -/
  integerSum : Int
  /-- The rounded sum of the doubles, in the order of arrival. -/
  doubleSum : Binary64
  doubleCount : Nat
  numberCount : Nat
  ordered : Bag

namespace Accumulator

def empty (fold : Fold) : Accumulator := ⟨fold, ∅, 0, .zero, 0, 0, []⟩

/-- Count a value in. -/
def enter (acc : Accumulator) (v : Value) : Accumulator := match acc.fold with
  | .sum _ | .average _ => match v with
    | .integer i =>
      { acc with integerSum := acc.integerSum + i.toInt, numberCount := acc.numberCount + 1 }
    | .double x =>
      { acc with
        doubleSum := acc.doubleSum.add x
        numberCount := acc.numberCount + 1
        doubleCount := acc.doubleCount + 1 }
    | _ => acc
  | .least _ | .greatest _ | .distinct _ =>
    if v.isNull then acc else { acc with ordered := acc.ordered.add v }
  | .count | .list _ => acc

/-- Count a value out. A sum without doubles left starts again at zero. -/
def leave (acc : Accumulator) (v : Value) : Accumulator := match acc.fold with
  | .sum _ | .average _ => match v with
    | .integer i =>
      { acc with integerSum := acc.integerSum - i.toInt, numberCount := acc.numberCount - 1 }
    | .double x =>
      let doubleCount := acc.doubleCount - 1
      { acc with
        doubleSum := if doubleCount = 0 then .zero else acc.doubleSum.add x.neg
        numberCount := acc.numberCount - 1
        doubleCount }
    | _ => acc
  | .least _ | .greatest _ | .distinct _ =>
    if v.isNull then acc else { acc with ordered := acc.ordered.remove v }
  | .count | .list _ => acc

/-- Take a fact away, if it contributes. -/
def remove (acc : Accumulator) (h : Handle) : Accumulator := match acc.contributions[h]? with
  | some v => { acc.leave v with contributions := acc.contributions.erase h }
  | none => acc

/-- Let a fact contribute a value, in place of what it contributed before. -/
def add (acc : Accumulator) (h : Handle) (v : Value) : Accumulator :=
  let acc := (acc.remove h).enter v
  { acc with contributions := acc.contributions.insert h v }

/-- The accumulator of all contributions, one after the other. -/
def ofList (fold : Fold) (contributions : List (Handle × Value)) : Accumulator :=
  contributions.foldl (fun acc c => acc.add c.1 c.2) (empty fold)

def contains (acc : Accumulator) (h : Handle) : Bool := acc.contributions.contains h

/-- The facts that contribute, in order of their handles. -/
def contributors (acc : Accumulator) : List Handle := acc.contributions.keys

def size (acc : Accumulator) : Nat := acc.contributions.size

/-- All numbers together as a double. -/
def doubleTotal (acc : Accumulator) : Binary64 := (Binary64.ofInt acc.integerSum).add acc.doubleSum

/-- The sum: an integer, cut to the range of integers, unless there are doubles in it. -/
def total (acc : Accumulator) : Value :=
  if acc.doubleCount = 0 then .integer (Integer64.nearest acc.integerSum)
  else .double acc.doubleTotal

/-- The folded value, if the fold is defined. -/
def result? (acc : Accumulator) : Option Value := match acc.fold with
  | .count => some (.integer (Integer64.nearest acc.size))
  | .sum _ => some acc.total
  | .average _ =>
    if acc.numberCount = 0 then none
    else some (.double (acc.doubleTotal.div (.ofNat acc.numberCount)))
  | .least _ => acc.ordered.values.head?
  | .greatest _ => acc.ordered.values.getLast?
  | .distinct _ => some (.array acc.ordered.values)
  | .list _ => some (.array (acc.contributions.values.filter fun v => !v.isNull))

end Accumulator

end RuleNet
