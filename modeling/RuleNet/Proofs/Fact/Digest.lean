/-
  What a hasher is fed with, and why equal facts have equal hashes.

  A hash table compares two keys only where their hashes agree. The hash of a fact is made from words: a
  number for the kind of each value and then its content, where every zero is fed as the positive one,
  and the fields of a fact and of an object are fed in the order of their names.

  * `Value.digest`, `Fact.digest`: the words that are fed.
  * `Fact.beq_iff`: equality of facts, which is symmetric and transitive.
  * `Fact.digest_of_beq`: what is equal is fed alike, so looking at the hashes first (`Fact.hashed_beq`)
    changes no comparison.
  * `Value.holdsNaN`: what holds something that is not a number equals nothing.
-/
import RuleNet.Fact.Basic
import RuleNet.Proofs.Value.Zeros

namespace RuleNet

/-! ## Words -/

/-- One thing that a hasher is fed with. -/
inductive Word where
  | kind (n : UInt8)
  | text (s : String)
  | integer (i : Int64)
  | bits (x : Binary64)
  | flag (b : Bool)
  | length (n : Nat)
  deriving DecidableEq

/-- The nanoseconds of an instant since the start of 1970, zero if there are too many of them. -/
def Instant.hashed (t : Instant) : Int64 :=
  let nanos := t.secs * 1000000000 + t.nanos
  if Integer64.holds nanos then Int64.ofInt nanos else 0

namespace Value

mutual

/-- What a hasher is fed with for a value. -/
def digest : Value → List Word
  | text s => [.kind 0, .text s]
  | integer i => [.kind 1, .integer i]
  | double x => [.kind 2, .bits x.unsigned]
  | boolean b => [.kind 3, .flag b]
  | array items => .kind 4 :: .length items.length :: digestItems items
  | object entries => .kind 5 :: digestEntries entries
  | date t => [.kind 6, .integer t.hashed]
  | null => [.kind 7]

def digestItems : List Value → List Word
  | [] => []
  | x :: xs => digest x ++ digestItems xs

def digestEntries : List (String × Value) → List Word
  | [] => []
  | (k, x) :: xs => .text k :: digest x ++ digestEntries xs

end

mutual

/-- Whether there is something in the value that is not a number though it is a double. -/
def holdsNaN : Value → Bool
  | double x => x.isNaN
  | array items => holdsNaNItems items
  | object entries => holdsNaNEntries entries
  | _ => false

def holdsNaNItems : List Value → Bool
  | [] => false
  | x :: xs => holdsNaN x || holdsNaNItems xs

def holdsNaNEntries : List (String × Value) → Bool
  | [] => false
  | (_, x) :: xs => holdsNaN x || holdsNaNEntries xs

end

/-! ## Equal values -/

theorem length_unsignedItems (xs : List Value) : (unsignedItems xs).length = xs.length := by
  induction xs with
  | nil => rfl
  | cons x xs ih => rw [unsignedItems, List.length_cons, List.length_cons, ih]

mutual

/-- Zeros are fed alike. -/
theorem digest_unsigned : ∀ v : Value, v.unsigned.digest = v.digest
  | double x => by
    have hidem : x.unsigned.unsigned = x.unsigned := by
      unfold Binary64.unsigned
      split
      · exact if_pos Binary64.magnitude_zero
      · rfl
    rw [unsigned, digest, digest, hidem]
  | array xs => by rw [unsigned, digest, digest, length_unsignedItems, digestItems_unsigned xs]
  | object xs => by rw [unsigned, digest, digest, digestEntries_unsigned xs]
  | null | boolean _ | integer _ | text _ | date _ => rfl

theorem digestItems_unsigned : ∀ xs : List Value, digestItems (unsignedItems xs) = digestItems xs
  | [] => rfl
  | x :: xs => by
    rw [unsignedItems, digestItems, digestItems, digest_unsigned x, digestItems_unsigned xs]

theorem digestEntries_unsigned : ∀ xs : List (String × Value),
    digestEntries (unsignedEntries xs) = digestEntries xs
  | [] => rfl
  | (k, x) :: xs => by
    rw [unsignedEntries, digestEntries, digestEntries, digest_unsigned x, digestEntries_unsigned xs]

end

/-- Fields that are equal are fed alike. -/
theorem digestEntries_of_equal {xs ys : List (String × Value)} (h : equalEntries xs ys = true) :
    digestEntries xs = digestEntries ys := by
  rw [← digestEntries_unsigned xs, unsigned_of_equalEntries xs ys h, digestEntries_unsigned ys]

mutual

/-- What holds something that is not a number equals nothing. -/
theorem equal_of_holdsNaN : ∀ v w : Value, v.holdsNaN = true → equal v w = false
  | double x, w => fun h => by
    cases w with
    | double y =>
      refine Bool.eq_false_iff.2 fun heq => ?_
      have hx : x.isNaN = true := h
      rw [(Binary64.equal_iff.1 heq).1] at hx
      cases hx
    | _ => rfl
  | array xs, w => fun h => by
    cases w with
    | array ys => exact equalItems_of_holdsNaN xs ys h
    | _ => rfl
  | object xs, w => fun h => by
    cases w with
    | object ys => exact equalEntries_of_holdsNaN xs ys h
    | _ => rfl
  | null, _ | boolean _, _ | integer _, _ | text _, _ | date _, _ => fun h => by cases h

theorem equalItems_of_holdsNaN : ∀ xs ys : List Value,
    holdsNaNItems xs = true → equalItems xs ys = false
  | [], _ => fun h => by cases h
  | x :: xs, [] => fun _ => rfl
  | x :: xs, y :: ys => fun h => by
    rw [holdsNaNItems, Bool.or_eq_true] at h
    rw [equalItems, Bool.and_eq_false_iff]
    exact h.imp (equal_of_holdsNaN x y) (equalItems_of_holdsNaN xs ys)

theorem equalEntries_of_holdsNaN : ∀ xs ys : List (String × Value),
    holdsNaNEntries xs = true → equalEntries xs ys = false
  | [], _ => fun h => by cases h
  | (k, x) :: xs, [] => fun _ => rfl
  | (k, x) :: xs, (l, y) :: ys => fun h => by
    rw [holdsNaNEntries, Bool.or_eq_true] at h
    rw [equalEntries, Bool.and_eq_false_iff, Bool.and_eq_false_iff]
    exact h.imp (fun hx => .inr (equal_of_holdsNaN x y hx)) (equalEntries_of_holdsNaN xs ys)

end

end Value

/-! ## Equal facts -/

namespace Fact

/-- What a hasher is fed with for a fact. -/
def digest (fact : Fact) : List Word := .text fact.type :: Value.digestEntries fact.fields

/-- Whether a field holds something that is not a number though it is a double. -/
def holdsNaN (fact : Fact) : Bool := Value.holdsNaNEntries fact.fields

/-- Facts are equal if they are of one type and have equal fields. -/
theorem beq_iff {f g : Fact} :
    (f == g) = true ↔ f.type = g.type ∧ Value.equalEntries f.fields g.fields = true := by
  have hfields : ∀ xs ys : List (String × Value), (xs == ys) = Value.equalEntries xs ys := by
    intro xs
    induction xs with
    | nil => intro ys; cases ys <;> rfl
    | cons x xs ih =>
      obtain ⟨k, x⟩ := x
      intro ys
      cases ys with
      | nil => rfl
      | cons y ys =>
        obtain ⟨l, y⟩ := y
        exact congrArg (k == l && Value.equal x y && ·) (ih ys)
  obtain ⟨type, fields⟩ := f
  obtain ⟨type', fields'⟩ := g
  change (type == type' && (fields == fields' : Bool)) = true ↔ _
  rw [Bool.and_eq_true, beq_iff_eq, hfields]

instance : PartialEquivBEq Fact where
  symm h := beq_iff.2 ⟨(beq_iff.1 h).1.symm, Value.equalEntries_symm _ _ (beq_iff.1 h).2⟩
  trans h h' := beq_iff.2 ⟨(beq_iff.1 h).1.trans (beq_iff.1 h').1,
    Value.equalEntries_trans _ _ _ (beq_iff.1 h).2 (beq_iff.1 h').2⟩

/-- Facts that are equal are fed alike. -/
theorem digest_of_beq {f g : Fact} (h : (f == g) = true) : f.digest = g.digest := by
  obtain ⟨htype, hfields⟩ := beq_iff.1 h
  rw [digest, digest, htype, Value.digestEntries_of_equal hfields]

/-- A table that compares the hashes first compares facts by equality. -/
theorem hashed_beq {α : Type} [DecidableEq α] (hasher : List Word → α) (f g : Fact) :
    (hasher f.digest == hasher g.digest && f == g) = (f == g) := by
  cases h : (f == g) with
  | false => rw [Bool.and_false]
  | true => rw [digest_of_beq h, beq_self_eq_true, Bool.and_true]

theorem beq_of_holdsNaN {f : Fact} (h : f.holdsNaN = true) (g : Fact) : (f == g) = false := by
  refine Bool.eq_false_iff.2 fun heq => ?_
  have hfields := (beq_iff.1 heq).2
  rw [Value.equalEntries_of_holdsNaN f.fields g.fields h] at hfields
  cases hfields

end Fact

end RuleNet
