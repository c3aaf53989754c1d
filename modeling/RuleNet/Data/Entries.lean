/-
  Entries: named values in the order of their names, the form of every record of this library.

  * `Entries.insert` puts an entry in its place and replaces an older one of the same name.
  * `Entries.find?_insert`: what a look-up sees after an insertion.
  * `Entries.ordered_insert`: the order of names is kept.
-/
import Std.Data.ExtTreeMap

namespace RuleNet

/-- Values under names, in ascending order of the names. -/
abbrev Entries (α : Type) := List (String × α)

namespace Entries

variable {α β : Type}

/-- The value under a name. -/
def find? (name : String) : Entries α → Option α
  | [] => none
  | (k, v) :: rest => if k = name then some v else find? name rest

/-- Put a value under a name, replacing an older one. -/
def insert (name : String) (value : α) : Entries α → Entries α
  | [] => [(name, value)]
  | (k, v) :: rest => match compare name k with
    | .lt => (name, value) :: (k, v) :: rest
    | .eq => (name, value) :: rest
    | .gt => (k, v) :: insert name value rest

/-- Take away the value under a name. -/
def erase (name : String) (entries : Entries α) : Entries α := entries.filter fun e => e.1 != name

/-- The entries of a list in any order; of a repeated name the last one stays. -/
def ofList (items : List (String × α)) : Entries α :=
  items.foldl (fun entries item => entries.insert item.1 item.2) []

def names (entries : Entries α) : List String := entries.map Prod.fst

def contains (name : String) (entries : Entries α) : Bool := (entries.find? name).isSome

/-- Names in strictly ascending order. -/
def Ordered (entries : Entries α) : Prop := entries.Pairwise fun a b => compare a.1 b.1 = .lt

@[simp] theorem find?_nil (name : String) : find? name ([] : Entries α) = none := rfl

theorem find?_insert (name other : String) (value : α) (entries : Entries α) :
    (entries.insert name value).find? other =
      if name = other then some value else entries.find? other := by
  induction entries with
  | nil => simp [insert, find?]
  | cons entry rest ih =>
    obtain ⟨k, v⟩ := entry
    simp only [insert]
    split
    · simp [find?]
    · next h =>
      obtain rfl := Std.LawfulEqOrd.eq_of_compare h
      by_cases hk : name = other <;> simp [find?, hk]
    · next h =>
      have hne : name ≠ k := fun e => by simp [e] at h
      by_cases hk : k = other
      · subst hk; simp [find?, hne]
      · simp [find?, hk, ih]

theorem mem_insert {name : String} {value : α} {entry : String × α} {entries : Entries α}
    (h : entry ∈ entries.insert name value) : entry = (name, value) ∨ entry ∈ entries := by
  induction entries with
  | nil => simpa [insert] using h
  | cons head rest ih =>
    obtain ⟨k, v⟩ := head
    simp only [insert] at h
    split at h <;> grind

theorem ordered_insert (name : String) (value : α) {entries : Entries α} (h : entries.Ordered) :
    (entries.insert name value).Ordered := by
  induction entries with
  | nil => simp [insert, Ordered]
  | cons head rest ih =>
    obtain ⟨k, v⟩ := head
    obtain ⟨hk, hr⟩ := List.pairwise_cons.1 h
    simp only [insert]
    split
    · next hlt =>
      exact List.pairwise_cons.2 ⟨fun entry he => (List.mem_cons.1 he).elim (fun e => e ▸ hlt)
        (fun he => Std.TransCmp.lt_trans hlt (hk _ he)), h⟩
    · next heq =>
      obtain rfl := Std.LawfulEqOrd.eq_of_compare heq
      exact List.pairwise_cons.2 ⟨hk, hr⟩
    · next hgt =>
      exact List.pairwise_cons.2 ⟨fun entry he => (mem_insert he).elim
        (fun e => e ▸ Std.OrientedCmp.lt_of_gt hgt) (hk _), ih hr⟩

end Entries

end RuleNet
