/-
  Ids filed under keys.

  * `dictionary`: pairs in dictionary order, the order of schedules and conflict sets.
  * `IdSet`: a finite set of numbers, listed in ascending order.
  * `Index`: sets of numbers under numbers, without empty sets.
  * `Buckets`: sets of numbers under keys that have an equality of their own, which need not hold
    between a key and itself; a key that equals nothing can be filed but never found.
-/
import Std.Data.ExtTreeMap
import Std.Data.ExtTreeSet

namespace RuleNet

/-! ## Pairs -/

/-- First by the first component, then by the second. -/
abbrev dictionary {α β : Type} [Ord α] [Ord β] : α × β → α × β → Ordering :=
  compareLex (compareOn Prod.fst) (compareOn Prod.snd)

instance {α β : Type} [Ord α] [Ord β] [Std.LawfulEqOrd α] [Std.LawfulEqOrd β] :
    Std.LawfulEqCmp (dictionary (α := α) (β := β)) where
  compare_self := by simp [dictionary, compareLex, compareOn]
  eq_of_compare := by
    rintro ⟨a, b⟩ ⟨c, d⟩ h
    simp only [dictionary, compareLex, compareOn, Ordering.then_eq_eq] at h
    rw [Std.LawfulEqOrd.eq_of_compare h.1, Std.LawfulEqOrd.eq_of_compare h.2]

instance natDictionary : Std.TransCmp (dictionary (α := Nat) (β := Nat)) := inferInstance

instance intNatDictionary : Std.TransCmp (dictionary (α := Int) (β := Nat)) := inferInstance

instance intDictionary : Std.TransCmp (dictionary (α := Int) (β := Int)) := inferInstance

/-! ## Sets of ids -/

/-- A finite set of ids. -/
abbrev IdSet := Std.ExtTreeSet Nat

/-- Sets of ids under ids; an absent set is the empty one. -/
abbrev Index := Std.ExtTreeMap Nat IdSet

namespace Index

/-- The set filed under `key`. -/
def get (index : Index) (key : Nat) : IdSet := (index[key]?).getD ∅

/-- File `id` under `key`. -/
def file (index : Index) (key id : Nat) : Index := index.insert key ((index.get key).insert id)

/-- Take `id` from under `key`; a set that becomes empty goes. -/
def unfile (index : Index) (key id : Nat) : Index :=
  let rest := (index.get key).erase id
  if rest.isEmpty then index.erase key else index.insert key rest

end Index

/-! ## Buckets -/

/-- Sets of ids under keys compared by `==`. -/
abbrev Buckets (κ : Type) := List (κ × IdSet)

namespace Buckets

variable {κ : Type} [BEq κ]

/-- The set under the first key equal to `key`. -/
def find? (key : κ) : Buckets κ → Option IdSet
  | [] => none
  | (k, ids) :: rest => if k == key then some ids else find? key rest

/-- The set under `key`, empty if there is none. -/
def get (buckets : Buckets κ) (key : κ) : IdSet := (buckets.find? key).getD ∅

/-- File `id` under `key`. -/
def file (key : κ) (id : Nat) : Buckets κ → Buckets κ
  | [] => [(key, (∅ : IdSet).insert id)]
  | (k, ids) :: rest =>
    if k == key then (k, ids.insert id) :: rest else (k, ids) :: file key id rest

/-- Take `id` from under `key`; a set that becomes empty goes. -/
def unfile (key : κ) (id : Nat) : Buckets κ → Buckets κ
  | [] => []
  | (k, ids) :: rest =>
    if k == key then
      let left := ids.erase id
      if left.isEmpty then rest else (k, left) :: rest
    else (k, ids) :: unfile key id rest

end Buckets

end RuleNet
