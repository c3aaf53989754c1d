/-
  How the equalities of values agree.

  * `==` is symmetric and transitive, which is all that filing under keys asks for.
  * `Value.blurs`: whether two values put an integer beside a double at some place, and the integer
    is no double itself.
  * `Value.indexKey_beq`: keys are equal exactly if the values are loosely equal and do not blur.
-/
import RuleNet.Proofs.Data.Filing
import RuleNet.Proofs.Number.Rounding
import RuleNet.Value.Equality

namespace RuleNet

namespace Binary64

theorem equal_symm {x y : Binary64} (h : x.equal y = true) : y.equal x = true := by
  obtain ⟨hx, hy, ho⟩ := equal_iff.1 h
  exact equal_iff.2 ⟨hy, hx, ho.symm⟩

theorem equal_trans {x y z : Binary64} (h : x.equal y = true) (h' : y.equal z = true) :
    x.equal z = true := by
  obtain ⟨hx, -, ho⟩ := equal_iff.1 h
  obtain ⟨-, hz, ho'⟩ := equal_iff.1 h'
  exact equal_iff.2 ⟨hx, hz, ho.trans ho'⟩

/-- Whether an integer is the value of a double. -/
def isExact (i : Int) : Bool := (ofInt i).scaled == i * twoTo 1074

end Binary64

namespace Value

/-! ## Symmetry and transitivity -/

mutual

theorem equal_symm : ∀ v w : Value, equal v w = true → equal w v = true
  | null, w => by cases w <;> simp [equal]
  | boolean a, w => by cases w <;> simp +contextual [equal]
  | integer i, w => by cases w <;> simp +contextual [equal]
  | double x, w => by
    cases w with
    | double y => exact Binary64.equal_symm
    | _ => simp [equal]
  | text s, w => by cases w <;> simp +contextual [equal]
  | date t, w => by cases w <;> simp +contextual [equal]
  | array xs, w => by
    cases w with
    | array ys => exact equalItems_symm xs ys
    | _ => simp [equal]
  | object xs, w => by
    cases w with
    | object ys => exact equalEntries_symm xs ys
    | _ => simp [equal]

theorem equalItems_symm : ∀ xs ys : List Value,
    equalItems xs ys = true → equalItems ys xs = true
  | [], ys => by cases ys <;> simp [equalItems]
  | x :: xs, ys => by
    cases ys with
    | nil => simp [equalItems]
    | cons y ys =>
      simp only [equalItems, Bool.and_eq_true]
      exact fun h => ⟨equal_symm x y h.1, equalItems_symm xs ys h.2⟩

theorem equalEntries_symm : ∀ xs ys : List (String × Value),
    equalEntries xs ys = true → equalEntries ys xs = true
  | [], ys => by cases ys <;> simp [equalEntries]
  | (k, x) :: xs, ys => by
    cases ys with
    | nil => simp [equalEntries]
    | cons y ys =>
      obtain ⟨l, y⟩ := y
      simp only [equalEntries, Bool.and_eq_true, beq_iff_eq]
      exact fun h => ⟨⟨h.1.1.symm, equal_symm x y h.1.2⟩, equalEntries_symm xs ys h.2⟩

end

mutual

theorem equal_trans : ∀ u v w : Value, equal u v = true → equal v w = true → equal u w = true
  | null, v, w => fun h h' => by
    cases v with
    | null => exact h'
    | _ => simp [equal] at h
  | boolean a, v, w => fun h h' => by
    cases v with
    | boolean b =>
      obtain rfl : a = b := by simpa [equal] using h
      exact h'
    | _ => simp [equal] at h
  | integer i, v, w => fun h h' => by
    cases v with
    | integer j =>
      obtain rfl : i = j := by simpa [equal] using h
      exact h'
    | _ => simp [equal] at h
  | double x, v, w => fun h h' => by
    cases v with
    | double y =>
      cases w with
      | double z => exact Binary64.equal_trans h h'
      | _ => simp [equal] at h'
    | _ => simp [equal] at h
  | text s, v, w => fun h h' => by
    cases v with
    | text t =>
      obtain rfl : s = t := by simpa [equal] using h
      exact h'
    | _ => simp [equal] at h
  | date t, v, w => fun h h' => by
    cases v with
    | date u =>
      obtain rfl : t = u := by simpa [equal] using h
      exact h'
    | _ => simp [equal] at h
  | array xs, v, w => fun h h' => by
    cases v with
    | array ys =>
      cases w with
      | array zs => exact equalItems_trans xs ys zs h h'
      | _ => simp [equal] at h'
    | _ => simp [equal] at h
  | object xs, v, w => fun h h' => by
    cases v with
    | object ys =>
      cases w with
      | object zs => exact equalEntries_trans xs ys zs h h'
      | _ => simp [equal] at h'
    | _ => simp [equal] at h

theorem equalItems_trans : ∀ xs ys zs : List Value,
    equalItems xs ys = true → equalItems ys zs = true → equalItems xs zs = true
  | [], ys, zs => by
    cases ys with
    | nil => exact fun _ h => h
    | cons y ys => simp [equalItems]
  | x :: xs, ys, zs => by
    cases ys with
    | nil => simp [equalItems]
    | cons y ys =>
      cases zs with
      | nil => simp [equalItems]
      | cons z zs =>
        simp only [equalItems, Bool.and_eq_true]
        exact fun h h' => ⟨equal_trans x y z h.1 h'.1, equalItems_trans xs ys zs h.2 h'.2⟩

theorem equalEntries_trans : ∀ xs ys zs : List (String × Value),
    equalEntries xs ys = true → equalEntries ys zs = true → equalEntries xs zs = true
  | [], ys, zs => by
    cases ys with
    | nil => exact fun _ h => h
    | cons y ys => simp [equalEntries]
  | (k, x) :: xs, ys, zs => by
    cases ys with
    | nil => simp [equalEntries]
    | cons y ys =>
      cases zs with
      | nil => simp [equalEntries]
      | cons z zs =>
        obtain ⟨l, y⟩ := y
        obtain ⟨j, z⟩ := z
        simp only [equalEntries, Bool.and_eq_true, beq_iff_eq]
        exact fun h h' => ⟨⟨h.1.1.trans h'.1.1, equal_trans x y z h.1.2 h'.1.2⟩,
          equalEntries_trans xs ys zs h.2 h'.2⟩

end

instance : PartialEquivBEq Value where
  symm := equal_symm _ _
  trans := equal_trans _ _ _

/-! ## Keys and loose equality -/

mutual

/-- Whether the values put an integer beside a double at some place, and the integer is not the
    value of a double: comparing the two rounds it first. -/
def blurs : Value → Value → Bool
  | integer i, double _ => !Binary64.isExact i.toInt
  | double _, integer j => !Binary64.isExact j.toInt
  | array xs, array ys => blursItems xs ys
  | object xs, object ys => blursEntries xs ys
  | _, _ => false

def blursItems : List Value → List Value → Bool
  | x :: xs, y :: ys => blurs x y || blursItems xs ys
  | _, _ => false

def blursEntries : List (String × Value) → List (String × Value) → Bool
  | (_, x) :: xs, (_, y) :: ys => blurs x y || blursEntries xs ys
  | _, _ => false

end

theorem toInt_ofInt {i : Int} (h : Integer64.holds i = true) : (Int64.ofInt i).toInt = i := by
  have h' := Integer64.holds_iff.1 h
  simp only [Integer64.least, Integer64.greatest] at h'
  exact Int64.toInt_ofInt_of_le (by omega) (by omega)

theorem holds_toInt (i : Int64) : Integer64.holds i.toInt = true := by
  have hle := i.le_toInt
  have hlt := i.toInt_lt
  rw [Integer64.holds_iff]
  simp only [Integer64.least, Integer64.greatest]
  omega

/-- The key of a double equals that of an integer exactly if the integer is its value. -/
theorem isWhole_and_iff {x : Binary64} {i : Int64} :
    isWhole x = true ∧ Int64.ofInt x.truncate = i ↔
      (Binary64.ofInt i.toInt).equal x = true ∧ Binary64.isExact i.toInt = true := by
  have hpos : (0 : Int) < twoTo 1074 := Int.natCast_pos.2 (twoTo_pos 1074)
  constructor
  · rintro ⟨hw, rfl⟩
    obtain ⟨hint, hholds⟩ := Bool.and_eq_true_iff.1 hw
    rw [toInt_ofInt hholds]
    have hord := Binary64.ofInt_truncate hint
    refine ⟨Binary64.equal_iff.2 ⟨Binary64.isNaN_ofInt _, Binary64.isNaN_of_isIntegral hint, hord⟩,
      ?_⟩
    rw [Binary64.isExact, beq_iff_eq, Binary64.scaled_eq_iff.2 hord]
    exact Binary64.scaled_of_isIntegral hint
  · rintro ⟨heq, hexact⟩
    obtain ⟨-, -, hord⟩ := Binary64.equal_iff.1 heq
    have hscaled : x.scaled = i.toInt * twoTo 1074 := by
      rw [← Binary64.scaled_eq_iff.2 hord]
      exact beq_iff_eq.1 hexact
    have htrunc : x.truncate = i.toInt := by
      rw [Binary64.truncate, hscaled]
      exact Int.mul_tdiv_cancel _ (Int.ne_of_gt hpos)
    have hfin : x.isFinite = true := by
      rw [Binary64.isFinite, decide_eq_true_eq, Binary64.magnitude_eq_natAbs, ← hord,
        ← Binary64.magnitude_eq_natAbs]
      exact Binary64.magnitude_ofInt_lt (holds_toInt i)
    have hint : x.isIntegral = true := by
      rw [Binary64.isIntegral, hfin, hscaled, Int.mul_emod_left]
      rfl
    refine ⟨Bool.and_eq_true_iff.2 ⟨hint, ?_⟩, ?_⟩
    · rw [htrunc]
      exact holds_toInt i
    · rw [htrunc, Int64.ofInt_toInt]

theorem equal_key_integer (i : Int64) (y : Binary64) :
    equal (integer i) (indexKey (double y)) =
      ((Binary64.ofInt i.toInt).equal y && Binary64.isExact i.toInt) := by
  rw [Bool.eq_iff_iff, Bool.and_eq_true, ← isWhole_and_iff, indexKey]
  split
  · next hw =>
    simp only [equal, beq_iff_eq, hw, true_and]
    exact eq_comm
  · next hw => simp only [equal, hw, Bool.false_eq_true, false_and]

theorem equal_key_doubles (x y : Binary64) :
    equal (indexKey (double x)) (indexKey (double y)) = x.equal y := by
  have hsame : x.equal y = true → isWhole x = isWhole y ∧ x.truncate = y.truncate := by
    intro h
    obtain ⟨-, -, hord⟩ := Binary64.equal_iff.1 h
    obtain ⟨htrunc, hint⟩ := Binary64.truncate_of_ordinal hord
    exact ⟨by rw [isWhole, isWhole, htrunc, hint], htrunc⟩
  rw [Bool.eq_iff_iff, indexKey, indexKey]
  by_cases hx : isWhole x = true
  · by_cases hy : isWhole y = true
    · obtain ⟨hxi, hxh⟩ := Bool.and_eq_true_iff.1 hx
      obtain ⟨hyi, hyh⟩ := Bool.and_eq_true_iff.1 hy
      rw [if_pos hx, if_pos hy]
      simp only [equal, beq_iff_eq]
      constructor
      · intro h
        have htrunc : x.truncate = y.truncate := by rw [← toInt_ofInt hxh, h, toInt_ofInt hyh]
        refine Binary64.equal_iff.2 ⟨Binary64.isNaN_of_isIntegral hxi,
          Binary64.isNaN_of_isIntegral hyi, ?_⟩
        rw [← Binary64.ofInt_truncate hxi, htrunc, Binary64.ofInt_truncate hyi]
      · exact fun h => by rw [(hsame h).2]
    · rw [if_pos hx, if_neg hy]
      simp only [equal, Bool.false_eq_true, false_iff]
      exact fun h => hy ((hsame h).1 ▸ hx)
  · by_cases hy : isWhole y = true
    · rw [if_neg hx, if_pos hy]
      simp only [equal, Bool.false_eq_true, false_iff]
      exact fun h => hx ((hsame h).1 ▸ hy)
    · rw [if_neg hx, if_neg hy]
      simp only [equal]

theorem binary_equal_comm (x y : Binary64) : x.equal y = y.equal x :=
  Bool.eq_iff_iff.2 ⟨Binary64.equal_symm, Binary64.equal_symm⟩

theorem equal_comm (v w : Value) : equal v w = equal w v :=
  Bool.eq_iff_iff.2 ⟨equal_symm v w, equal_symm w v⟩

/-- The key of a double is a number. -/
theorem equal_key_double (x : Binary64) {v : Value} (h : v.asDouble? = none) :
    equal (indexKey (double x)) v = false := by
  rw [indexKey]
  split
  · cases v with
    | integer j => simp [asDouble?] at h
    | _ => simp only [equal]
  · cases v with
    | double y => simp [asDouble?] at h
    | _ => simp only [equal]

mutual

theorem equal_indexKey : ∀ v w : Value,
    equal v.indexKey w.indexKey = (looseEq v w && !blurs v w)
  | null, w => by
    cases w with
    | double y => exact (equal_comm _ _).trans (equal_key_double y rfl)
    | _ => simp [indexKey, looseEq, blurs, equal]
  | boolean b, w => by
    cases w with
    | double y => exact (equal_comm _ _).trans (equal_key_double y (v := boolean b) rfl)
    | _ => simp [indexKey, looseEq, blurs, equal]
  | text s, w => by
    cases w with
    | double y => exact (equal_comm _ _).trans (equal_key_double y (v := text s) rfl)
    | _ => simp [indexKey, looseEq, blurs, equal]
  | date t, w => by
    cases w with
    | double y => exact (equal_comm _ _).trans (equal_key_double y (v := date t) rfl)
    | _ => simp [indexKey, looseEq, blurs, equal]
  | integer i, w => by
    cases w with
    | double y => simp only [looseEq, blurs, Bool.not_not, ← equal_key_integer, indexKey]
    | _ => simp [indexKey, looseEq, blurs, equal]
  | double x, w => by
    cases w with
    | integer j =>
      have hkey : (integer j).indexKey = integer j := by simp only [indexKey]
      rw [equal_comm, hkey, equal_key_integer, binary_equal_comm]
      simp only [looseEq, blurs, Bool.not_not]
    | double y => simp only [looseEq, blurs, equal_key_doubles, Bool.not_false, Bool.and_true]
    | null => exact equal_key_double x rfl
    | boolean b => exact equal_key_double x (v := boolean b) rfl
    | text s => exact equal_key_double x (v := text s) rfl
    | date t => exact equal_key_double x (v := date t) rfl
    | array ys => exact equal_key_double x (v := (array ys).indexKey) rfl
    | object ys => exact equal_key_double x (v := (object ys).indexKey) rfl
  | array xs, w => by
    cases w with
    | array ys => simp only [indexKey, looseEq, blurs, equal, equalItems_indexKey xs ys]
    | double y => exact (equal_comm _ _).trans (equal_key_double y (v := (array xs).indexKey) rfl)
    | _ => simp [indexKey, looseEq, blurs, equal]
  | object xs, w => by
    cases w with
    | object ys => simp only [indexKey, looseEq, blurs, equal, equalEntries_indexKey xs ys]
    | double y => exact (equal_comm _ _).trans (equal_key_double y (v := (object xs).indexKey) rfl)
    | _ => simp [indexKey, looseEq, blurs, equal]

theorem equalItems_indexKey : ∀ xs ys : List Value,
    equalItems (indexKeyItems xs) (indexKeyItems ys) = (looseEqItems xs ys && !blursItems xs ys)
  | [], ys => by cases ys <;> simp [indexKeyItems, looseEqItems, blursItems, equalItems]
  | x :: xs, ys => by
    cases ys with
    | nil => simp [indexKeyItems, looseEqItems, blursItems, equalItems]
    | cons y ys =>
      simp only [indexKeyItems, looseEqItems, blursItems, equalItems, equal_indexKey x y,
        equalItems_indexKey xs ys, Bool.not_or]
      ac_rfl

theorem equalEntries_indexKey : ∀ xs ys : List (String × Value),
    equalEntries (indexKeyEntries xs) (indexKeyEntries ys) =
      (looseEqEntries xs ys && !blursEntries xs ys)
  | [], ys => by
    cases ys <;> simp [indexKeyEntries, looseEqEntries, blursEntries, equalEntries]
  | (k, x) :: xs, ys => by
    cases ys with
    | nil => simp [indexKeyEntries, looseEqEntries, blursEntries, equalEntries]
    | cons y ys =>
      obtain ⟨l, y⟩ := y
      simp only [indexKeyEntries, looseEqEntries, blursEntries, equalEntries, equal_indexKey x y,
        equalEntries_indexKey xs ys, Bool.not_or]
      ac_rfl

end

/-- Keys are equal exactly if the values are loosely equal and no integer in them is rounded to
    compare it. -/
theorem indexKey_beq (v w : Value) :
    (v.indexKey == w.indexKey) = (v.looseEq w && !v.blurs w) := equal_indexKey v w

end Value

end RuleNet
