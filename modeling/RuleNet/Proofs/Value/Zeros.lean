/-
  Values up to the signs of zeros.

  * `Value.unsigned`: the value with a positive zero in place of every negative one.
  * `Value.unsigned_of_beq`: values that are equal as facts differ in nothing else.
  * `Operator.apply_unsigned`, `Value.indexKey_unsigned`: neither comparisons nor look-ups see the
    signs of zeros.
-/
import RuleNet.Proofs.Value.Equality
import RuleNet.Rule.Operator

namespace RuleNet

namespace Binary64

/-- The double, or the positive zero if it is a zero. -/
def unsigned (x : Binary64) : Binary64 := if x.magnitude = 0 then zero else x

theorem magnitude_zero : zero.magnitude = 0 := magnitude_make false (twoTo_pos 63)

theorem ordinal_unsigned (x : Binary64) : x.unsigned.ordinal = x.ordinal := by
  unfold unsigned
  split
  · next h => simp [ordinal, h, magnitude_zero]
  · rfl

theorem isNaN_unsigned (x : Binary64) : x.unsigned.isNaN = x.isNaN := by
  unfold unsigned
  split
  · next h => rw [isNaN, isNaN, h, magnitude_zero]
  · rfl

/-- Doubles that are equal as numbers differ in the sign of a zero at most. -/
theorem unsigned_of_equal {x y : Binary64} (h : x.equal y = true) : x.unsigned = y.unsigned := by
  obtain ⟨-, -, ho⟩ := equal_iff.1 h
  have hm : x.magnitude = y.magnitude := by
    rw [magnitude_eq_natAbs, magnitude_eq_natAbs, ho]
  unfold unsigned
  rw [hm]
  split
  · rfl
  · next hz =>
    rw [← make_self x, ← make_self y, hm]
    congr 1
    unfold ordinal at ho
    cases hx : x.isNegative <;> cases hy : y.isNegative <;> simp [hx, hy] at ho ⊢ <;> omega

/-- A zero is a whole number. -/
theorem isIntegral_of_magnitude {x : Binary64} (h : x.magnitude = 0) :
    x.isIntegral = true ∧ x.truncate = 0 := by
  have hs : x.scaled = 0 := by simp [scaled, h, scaledMagnitude_zero]
  have hf : x.isFinite = true := by
    rw [isFinite, h]
    decide
  rw [isIntegral, truncate, hs, hf, Int.zero_emod, Int.zero_tdiv]
  exact ⟨rfl, rfl⟩

end Binary64

namespace Value

mutual

/-- The value with a positive zero in place of every negative one. -/
def unsigned : Value → Value
  | double x => double x.unsigned
  | array items => array (unsignedItems items)
  | object entries => object (unsignedEntries entries)
  | v => v

def unsignedItems : List Value → List Value
  | [] => []
  | x :: xs => unsigned x :: unsignedItems xs

def unsignedEntries : List (String × Value) → List (String × Value)
  | [] => []
  | (k, x) :: xs => (k, unsigned x) :: unsignedEntries xs

end

mutual

theorem unsigned_of_equal : ∀ v w : Value, equal v w = true → v.unsigned = w.unsigned
  | null, w => by cases w <;> simp [equal, unsigned]
  | boolean _, w => by cases w <;> simp [equal, unsigned]
  | integer _, w => by cases w <;> simp [equal, unsigned]
  | double x, w => by
    cases w with
    | double y => exact fun h => congrArg double (Binary64.unsigned_of_equal h)
    | _ => simp [equal]
  | text _, w => by cases w <;> simp [equal, unsigned]
  | date _, w => by cases w <;> simp [equal, unsigned]
  | array xs, w => by
    cases w with
    | array ys => exact fun h => congrArg array (unsigned_of_equalItems xs ys h)
    | _ => simp [equal]
  | object xs, w => by
    cases w with
    | object ys => exact fun h => congrArg object (unsigned_of_equalEntries xs ys h)
    | _ => simp [equal]

theorem unsigned_of_equalItems : ∀ xs ys : List Value,
    equalItems xs ys = true → unsignedItems xs = unsignedItems ys
  | [], ys => by cases ys <;> simp [equalItems]
  | x :: xs, ys => by
    cases ys with
    | nil => simp [equalItems]
    | cons y ys =>
      simp only [equalItems, Bool.and_eq_true, unsignedItems]
      rintro ⟨hx, hxs⟩
      rw [unsigned_of_equal x y hx, unsigned_of_equalItems xs ys hxs]

theorem unsigned_of_equalEntries : ∀ xs ys : List (String × Value),
    equalEntries xs ys = true → unsignedEntries xs = unsignedEntries ys
  | [], ys => by cases ys <;> simp [equalEntries]
  | (k, x) :: xs, ys => by
    cases ys with
    | nil => simp [equalEntries]
    | cons y ys =>
      obtain ⟨l, y⟩ := y
      simp only [equalEntries, Bool.and_eq_true, beq_iff_eq, unsignedEntries]
      rintro ⟨⟨rfl, hx⟩, hxs⟩
      rw [unsigned_of_equal x y hx, unsigned_of_equalEntries xs ys hxs]

end

/-- Values that are equal as facts differ in the signs of zeros at most. -/
theorem unsigned_of_beq {v w : Value} (h : (v == w) = true) : v.unsigned = w.unsigned :=
  unsigned_of_equal v w h

/-! ## What does not see the signs -/

mutual

theorem looseEq_unsigned : ∀ v w : Value, v.unsigned.looseEq w.unsigned = v.looseEq w
  | array xs, w => by
    cases w with
    | array ys => simpa only [unsigned, looseEq] using looseEqItems_unsigned xs ys
    | _ => rfl
  | object xs, w => by
    cases w with
    | object ys => simpa only [unsigned, looseEq] using looseEqEntries_unsigned xs ys
    | _ => rfl
  | null, w => by cases w <;> rfl
  | boolean _, w => by cases w <;> rfl
  | integer i, w => by
    cases w with
    | double y => simp [unsigned, looseEq, Binary64.equal, Binary64.partialCompare,
        Binary64.isNaN_unsigned, Binary64.ordinal_unsigned]
    | _ => rfl
  | double x, w => by
    cases w with
    | integer j => simp [unsigned, looseEq, Binary64.equal, Binary64.partialCompare,
        Binary64.isNaN_unsigned, Binary64.ordinal_unsigned]
    | double y => simp [unsigned, looseEq, Binary64.equal, Binary64.partialCompare,
        Binary64.isNaN_unsigned, Binary64.ordinal_unsigned]
    | _ => rfl
  | text _, w => by cases w <;> rfl
  | date _, w => by cases w <;> rfl

theorem looseEqItems_unsigned : ∀ xs ys : List Value,
    looseEqItems (unsignedItems xs) (unsignedItems ys) = looseEqItems xs ys
  | [], ys => by cases ys <;> rfl
  | x :: xs, ys => by
    cases ys with
    | nil => rfl
    | cons y ys => rw [unsignedItems, unsignedItems, looseEqItems, looseEqItems,
        looseEq_unsigned x y, looseEqItems_unsigned xs ys]

theorem looseEqEntries_unsigned : ∀ xs ys : List (String × Value),
    looseEqEntries (unsignedEntries xs) (unsignedEntries ys) = looseEqEntries xs ys
  | [], ys => by cases ys <;> rfl
  | (k, x) :: xs, ys => by
    cases ys with
    | nil => rfl
    | cons y ys =>
      obtain ⟨l, y⟩ := y
      rw [unsignedEntries, unsignedEntries, looseEqEntries, looseEqEntries,
        looseEq_unsigned x y, looseEqEntries_unsigned xs ys]

end

theorem partialCompare_unsigned (v w : Value) :
    v.unsigned.partialCompare w.unsigned = v.partialCompare w := by
  cases v <;> cases w <;> simp [unsigned, partialCompare, Binary64.partialCompare,
    Binary64.isNaN_unsigned, Binary64.ordinal_unsigned]

mutual

/-- Zeros are filed under one key. -/
theorem indexKey_unsigned : ∀ v : Value, v.unsigned.indexKey = v.indexKey
  | double x => by
    rw [unsigned]
    unfold Binary64.unsigned
    split
    · next h =>
      have hwhole : ∀ {y : Binary64}, y.magnitude = 0 → indexKey (double y) = integer 0 :=
        fun {y} hy => by
          obtain ⟨hi, ht⟩ := Binary64.isIntegral_of_magnitude hy
          rw [indexKey, if_pos (by rw [isWhole, hi, ht]; decide), ht]
          rfl
      rw [hwhole h, hwhole Binary64.magnitude_zero]
    · rfl
  | array xs => congrArg array (indexKeyItems_unsigned xs)
  | object xs => congrArg object (indexKeyEntries_unsigned xs)
  | null => rfl
  | boolean _ => rfl
  | integer _ => rfl
  | text _ => rfl
  | date _ => rfl

theorem indexKeyItems_unsigned : ∀ xs : List Value,
    indexKeyItems (unsignedItems xs) = indexKeyItems xs
  | [] => rfl
  | x :: xs => by
    rw [unsignedItems, indexKeyItems, indexKeyItems, indexKey_unsigned x, indexKeyItems_unsigned xs]

theorem indexKeyEntries_unsigned : ∀ xs : List (String × Value),
    indexKeyEntries (unsignedEntries xs) = indexKeyEntries xs
  | [] => rfl
  | (k, x) :: xs => by
    rw [unsignedEntries, indexKeyEntries, indexKeyEntries, indexKey_unsigned x,
      indexKeyEntries_unsigned xs]

end

theorem any_looseEq_unsigned (xs : List Value) (w : Value) :
    (unsignedItems xs).any (fun x => x.looseEq w.unsigned) = xs.any fun x => x.looseEq w := by
  induction xs with
  | nil => rfl
  | cons x xs ih => rw [unsignedItems, List.any_cons, List.any_cons, looseEq_unsigned, ih]

end Value

namespace Operator

theorem contains?_unsigned (v w : Value) : contains? v.unsigned w.unsigned = contains? v w := by
  cases v with
  | array xs => exact congrArg some (Value.any_looseEq_unsigned xs w)
  | text s => cases w <;> rfl
  | _ => cases w <;> rfl

/-- Comparisons do not see the signs of zeros. -/
theorem apply_unsigned (operator : Operator) (v w : Value) :
    operator.apply v.unsigned w.unsigned = operator.apply v w := by
  cases operator with
  | equal => exact Value.looseEq_unsigned v w
  | notEqual => exact congrArg (!·) (Value.looseEq_unsigned v w)
  | contains | notContains | memberOf => simp only [apply, contains?_unsigned]
  | startsWith | endsWith => cases v <;> cases w <;> rfl
  | greater | less | greaterOrEqual | lessOrEqual =>
    simp only [apply, Value.partialCompare_unsigned]

end Operator

end RuleNet
