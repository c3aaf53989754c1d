/-
  The total order of values is linear.

  * `Value.numberKey`: the place of a number among all numbers; an integer comes just before the
    double that it rounds to.
  * `Value.totalCompare_swap`, `Value.eq_of_totalCompare`, `Value.lt_trans`: the laws of a linear
    order, by recursion on containers; the instances at the end put them together.
-/
import RuleNet.Proofs.Number.Rounding
import RuleNet.Value.Order

namespace RuleNet

theorem Binary64.totalOrdinal_inj {x y : Binary64} (h : x.totalOrdinal = y.totalOrdinal) :
    x = y := by
  have h63 : twoTo 63 = 9223372036854775808 := by decide
  have hx := x.bits.toNat_lt
  have hy := y.bits.toNat_lt
  have hbits : x.bits.toNat = y.bits.toNat := by
    simp only [totalOrdinal, isNegative, magnitude, h63, decide_eq_true_eq] at h
    split at h <;> split at h <;> omega
  cases x with
  | mk bits => rw [Binary64.mk.injEq]; exact UInt64.toNat_inj.1 hbits

instance : Std.TransCmp Instant.compare :=
  inferInstanceAs (Std.TransCmp (compareLex (compareOn Instant.secs) (compareOn Instant.nanos)))

theorem Instant.eq_of_compare {t u : Instant} (h : t.compare u = .eq) : t = u := by
  obtain ⟨hs, hn⟩ := Ordering.then_eq_eq.1 h
  cases t with
  | mk s n =>
    cases u with
    | mk s' n' =>
      rw [Instant.mk.injEq]
      exact ⟨Std.LawfulEqOrd.eq_of_compare hs, Std.LawfulEqOrd.eq_of_compare hn⟩

namespace Value

/-! ## Numbers -/

/-- The order of the places of numbers. -/
def placeCompare : Int × Int × Int → Int × Int × Int → Ordering :=
  compareLex (compareOn Prod.fst)
    (compareLex (compareOn fun p => p.2.1) (compareOn fun p => p.2.2))

instance : Std.TransCmp placeCompare := inferInstanceAs (Std.TransCmp (compareLex _ _))

theorem placeCompare_eq (p q : Int × Int × Int) : placeCompare p q =
    (compare p.1 q.1).then ((compare p.2.1 q.2.1).then (compare p.2.2 q.2.2)) := rfl

/-- The place of a number among all numbers: the double that it is or rounds to, whether it is a
    double, and the integer that it is. -/
def numberKey : Value → Int × Int × Int
  | integer i => ((Binary64.ofInt i.toInt).totalOrdinal, 0, i.toInt)
  | double x => (x.totalOrdinal, 1, 0)
  | _ => (0, 0, 0)

theorem compare_ofInt (i j : Int) :
    (compare (Binary64.ofInt i).totalOrdinal (Binary64.ofInt j).totalOrdinal).then
      (compare i j) = compare i j := by
  have hle : i ≤ j → (Binary64.ofInt i).totalOrdinal ≤ (Binary64.ofInt j).totalOrdinal :=
    Binary64.ofInt_mono
  have hge : j ≤ i → (Binary64.ofInt j).totalOrdinal ≤ (Binary64.ofInt i).totalOrdinal :=
    Binary64.ofInt_mono
  generalize (Binary64.ofInt i).totalOrdinal = a at hle hge ⊢
  generalize (Binary64.ofInt j).totalOrdinal = b at hle hge ⊢
  rcases Int.lt_trichotomy i j with hlt | rfl | hgt
  · have hij : compare i j = .lt := Int.compare_eq_lt.2 hlt
    rw [hij, Ordering.then_eq_lt, Int.compare_eq_lt, Int.compare_eq_eq]
    exact (Int.lt_or_eq_of_le (hle (Int.le_of_lt hlt))).imp_right fun h => ⟨h, rfl⟩
  · obtain rfl : a = b := Int.le_antisymm (hle (Int.le_refl i)) (hge (Int.le_refl i))
    rw [Int.compare_eq_eq.2 rfl]
    rfl
  · have hij : compare i j = .gt := Int.compare_eq_gt.2 hgt
    rw [hij, Ordering.then_eq_gt, Int.compare_eq_gt, Int.compare_eq_eq]
    exact (Int.lt_or_eq_of_le (hge (Int.le_of_lt hgt))).imp_right fun h => ⟨h.symm, rfl⟩

theorem totalCompare_number {v w : Value} (hv : v.rank = 2) (hw : w.rank = 2) :
    v.totalCompare w = placeCompare v.numberKey w.numberKey := by
  have hsame : ∀ o : Ordering, (compare (0 : Int) 0).then o = o := fun _ => rfl
  rw [placeCompare_eq]
  cases v with
  | integer i =>
    cases w with
    | integer j =>
      rw [totalCompare, numberKey, numberKey]
      rw [hsame, compare_ofInt]
    | double y =>
      rw [totalCompare, numberKey, numberKey, Binary64.totalCompare]
      generalize (Binary64.ofInt i.toInt).totalOrdinal = a
      rfl
    | _ => cases hw
  | double x =>
    cases w with
    | integer j =>
      rw [totalCompare, numberKey, numberKey, Binary64.totalCompare]
      generalize (Binary64.ofInt j.toInt).totalOrdinal = a
      rfl
    | double y =>
      rw [totalCompare, numberKey, numberKey, Binary64.totalCompare]
      cases compare x.totalOrdinal y.totalOrdinal <;> rfl
    | _ => cases hw
  | _ => cases hv

theorem numberKey_inj {v w : Value} (hv : v.rank = 2) (hw : w.rank = 2)
    (h : placeCompare v.numberKey w.numberKey = .eq) : v = w := by
  simp only [placeCompare_eq, Ordering.then_eq_eq, Int.compare_eq_eq] at h
  obtain ⟨h1, h2, h3⟩ := h
  cases v with
  | integer i =>
    cases w with
    | integer j => rw [Int64.toInt_inj.1 h3]
    | double y => simp only [numberKey] at h2; omega
    | _ => cases hw
  | double x =>
    cases w with
    | integer j => simp only [numberKey] at h2; omega
    | double y => rw [Binary64.totalOrdinal_inj h1]
    | _ => cases hw
  | _ => cases hv

/-! ## Kinds -/

/-- Kinds come one after the other. -/
theorem totalCompare_of_rank_ne {v w : Value} (h : v.rank ≠ w.rank) :
    v.totalCompare w = compare v.rank w.rank := by
  cases v <;> cases w <;> first | exact absurd rfl h | rfl

theorem totalCompare_of_rank_lt {v w : Value} (h : v.rank < w.rank) : v.totalCompare w = .lt := by
  rw [totalCompare_of_rank_ne (Nat.ne_of_lt h), Nat.compare_eq_lt]
  exact h

theorem rank_le_of_lt {v w : Value} (h : v.totalCompare w = .lt) : v.rank ≤ w.rank := by
  by_cases hr : v.rank = w.rank
  · exact Nat.le_of_eq hr
  · rw [totalCompare_of_rank_ne hr, Nat.compare_eq_lt] at h
    exact Nat.le_of_lt h

/-! ## The laws -/

mutual

theorem totalCompare_swap : ∀ v w : Value, w.totalCompare v = (v.totalCompare w).swap
  | array xs, w => by
    cases w with
    | array ys => exact totalCompareItems_swap xs ys
    | _ => rfl
  | object xs, w => by
    cases w with
    | object ys => exact totalCompareEntries_swap xs ys
    | _ => rfl
  | null, w => by cases w <;> rfl
  | boolean a, w => by
    cases w with
    | boolean b => exact Std.OrientedOrd.eq_swap
    | _ => rfl
  | text s, w => by
    cases w with
    | text t => exact Std.OrientedOrd.eq_swap
    | _ => rfl
  | date t, w => by
    cases w with
    | date u => exact @Std.OrientedCmp.eq_swap _ Instant.compare _ _ _
    | _ => rfl
  | integer i, w => by
    by_cases hw : w.rank = 2
    · rw [totalCompare_number hw rfl, totalCompare_number rfl hw]
      exact Std.OrientedCmp.eq_swap
    · cases w <;> first | exact absurd rfl hw | rfl
  | double x, w => by
    by_cases hw : w.rank = 2
    · rw [totalCompare_number hw rfl, totalCompare_number rfl hw]
      exact Std.OrientedCmp.eq_swap
    · cases w <;> first | exact absurd rfl hw | rfl

theorem totalCompareItems_swap : ∀ xs ys : List Value,
    totalCompareItems ys xs = (totalCompareItems xs ys).swap
  | [], ys => by cases ys <;> rfl
  | x :: xs, ys => by
    cases ys with
    | nil => rfl
    | cons y ys =>
      simp only [totalCompareItems, totalCompare_swap x y, totalCompareItems_swap xs ys,
        Ordering.swap_then]

theorem totalCompareEntries_swap : ∀ xs ys : List (String × Value),
    totalCompareEntries ys xs = (totalCompareEntries xs ys).swap
  | [], ys => by cases ys <;> rfl
  | (k, x) :: xs, ys => by
    cases ys with
    | nil => rfl
    | cons y ys =>
      obtain ⟨l, y⟩ := y
      have hkey : compare l k = (compare k l).swap := Std.OrientedCmp.eq_swap
      simp only [totalCompareEntries, totalCompare_swap x y, totalCompareEntries_swap xs ys,
        Ordering.swap_then, hkey]

end

mutual

theorem eq_of_totalCompare : ∀ v w : Value, v.totalCompare w = .eq → v = w
  | array xs, w => fun h => by
    cases w with
    | array ys => rw [eq_of_totalCompareItems xs ys h]
    | _ => cases h
  | object xs, w => fun h => by
    cases w with
    | object ys => rw [eq_of_totalCompareEntries xs ys h]
    | _ => cases h
  | null, w => fun h => by
    cases w with
    | null => rfl
    | _ => cases h
  | boolean a, w => fun h => by
    cases w with
    | boolean b => rw [Std.LawfulEqOrd.eq_of_compare (a := a) (b := b) h]
    | _ => cases h
  | text s, w => fun h => by
    cases w with
    | text t => rw [Std.LawfulEqOrd.eq_of_compare (a := s) (b := t) h]
    | _ => cases h
  | date t, w => fun h => by
    cases w with
    | date u => rw [Instant.eq_of_compare (t := t) (u := u) h]
    | _ => cases h
  | integer i, w => fun h => by
    by_cases hw : w.rank = 2
    · rw [totalCompare_number rfl hw] at h
      exact numberKey_inj rfl hw h
    · cases w <;> first | exact absurd rfl hw | cases h
  | double x, w => fun h => by
    by_cases hw : w.rank = 2
    · rw [totalCompare_number rfl hw] at h
      exact numberKey_inj rfl hw h
    · cases w <;> first | exact absurd rfl hw | cases h

theorem eq_of_totalCompareItems : ∀ xs ys : List Value, totalCompareItems xs ys = .eq → xs = ys
  | [], ys => fun h => by
    cases ys with
    | nil => rfl
    | cons y ys => cases h
  | x :: xs, ys => fun h => by
    cases ys with
    | nil => cases h
    | cons y ys =>
      obtain ⟨hx, hxs⟩ := Ordering.then_eq_eq.1 h
      rw [eq_of_totalCompare x y hx, eq_of_totalCompareItems xs ys hxs]

theorem eq_of_totalCompareEntries : ∀ xs ys : List (String × Value),
    totalCompareEntries xs ys = .eq → xs = ys
  | [], ys => fun h => by
    cases ys with
    | nil => rfl
    | cons y ys => cases h
  | (k, x) :: xs, ys => fun h => by
    cases ys with
    | nil => cases h
    | cons y ys =>
      obtain ⟨l, y⟩ := y
      obtain ⟨hkx, hxs⟩ := Ordering.then_eq_eq.1 h
      obtain ⟨hk, hx⟩ := Ordering.then_eq_eq.1 hkx
      rw [Std.LawfulEqOrd.eq_of_compare hk, eq_of_totalCompare x y hx,
        eq_of_totalCompareEntries xs ys hxs]

end

theorem totalCompare_self (v : Value) : v.totalCompare v = .eq := by
  have h := totalCompare_swap v v
  cases hv : v.totalCompare v with
  | eq => rfl
  | lt => rw [hv] at h; cases h
  | gt => rw [hv] at h; cases h

theorem gt_iff_lt {v w : Value} : v.totalCompare w = .gt ↔ w.totalCompare v = .lt := by
  rw [totalCompare_swap v w, Ordering.swap_eq_lt]

/-- Values of three kinds, or of one. -/
theorem lt_trans_of_rank {u v w : Value} (huv : u.totalCompare v = .lt)
    (hvw : v.totalCompare w = .lt)
    (h : u.rank = v.rank → v.rank = w.rank → u.totalCompare w = .lt) :
    u.totalCompare w = .lt := by
  have hle := rank_le_of_lt huv
  have hle' := rank_le_of_lt hvw
  by_cases hlt : u.rank < w.rank
  · exact totalCompare_of_rank_lt hlt
  · exact h (by omega) (by omega)

mutual

theorem lt_trans : ∀ u v w : Value,
    u.totalCompare v = .lt → v.totalCompare w = .lt → u.totalCompare w = .lt
  | array xs, v, w => fun huv hvw => lt_trans_of_rank huv hvw fun hr hr' => by
    cases v with
    | array ys =>
      cases w with
      | array zs => exact lt_transItems xs ys zs huv hvw
      | _ => cases hr'
    | _ => cases hr
  | object xs, v, w => fun huv hvw => lt_trans_of_rank huv hvw fun hr hr' => by
    cases v with
    | object ys =>
      cases w with
      | object zs => exact lt_transEntries xs ys zs huv hvw
      | _ => cases hr'
    | _ => cases hr
  | null, v, w => fun huv hvw => lt_trans_of_rank huv hvw fun hr _ => by
    cases v with
    | null => cases huv
    | _ => cases hr
  | boolean a, v, w => fun huv hvw => lt_trans_of_rank huv hvw fun hr hr' => by
    cases v with
    | boolean b =>
      cases w with
      | boolean c => exact @Std.TransCmp.lt_trans Bool compare _ _ _ _ huv hvw
      | _ => cases hr'
    | _ => cases hr
  | text s, v, w => fun huv hvw => lt_trans_of_rank huv hvw fun hr hr' => by
    cases v with
    | text t =>
      cases w with
      | text u => exact @Std.TransCmp.lt_trans String compare _ _ _ _ huv hvw
      | _ => cases hr'
    | _ => cases hr
  | date s, v, w => fun huv hvw => lt_trans_of_rank huv hvw fun hr hr' => by
    cases v with
    | date t =>
      cases w with
      | date u => exact @Std.TransCmp.lt_trans _ Instant.compare _ _ _ _ huv hvw
      | _ => cases hr'
    | _ => cases hr
  | integer i, v, w => fun huv hvw => lt_trans_of_rank huv hvw fun hr hr' => by
    rw [totalCompare_number rfl hr.symm] at huv
    rw [totalCompare_number hr.symm (hr.trans hr').symm] at hvw
    rw [totalCompare_number rfl (hr.trans hr').symm]
    exact Std.TransCmp.lt_trans huv hvw
  | double x, v, w => fun huv hvw => lt_trans_of_rank huv hvw fun hr hr' => by
    rw [totalCompare_number rfl hr.symm] at huv
    rw [totalCompare_number hr.symm (hr.trans hr').symm] at hvw
    rw [totalCompare_number rfl (hr.trans hr').symm]
    exact Std.TransCmp.lt_trans huv hvw

theorem lt_transItems : ∀ xs ys zs : List Value, totalCompareItems xs ys = .lt →
    totalCompareItems ys zs = .lt → totalCompareItems xs zs = .lt
  | [], ys, zs => fun h h' => by
    cases zs with
    | cons z zs => rfl
    | nil =>
      cases ys with
      | nil => exact h
      | cons y ys => simp [totalCompareItems] at h'
  | x :: xs, ys, zs => fun h h' => by
    cases ys with
    | nil => cases h
    | cons y ys =>
      cases zs with
      | nil => cases h'
      | cons z zs =>
        rcases Ordering.then_eq_lt.1 h with hx | ⟨hx, hxs⟩
        · refine Ordering.then_eq_lt.2 (Or.inl ?_)
          rcases Ordering.then_eq_lt.1 h' with hy | ⟨hy, -⟩
          · exact lt_trans x y z hx hy
          · exact eq_of_totalCompare y z hy ▸ hx
        · obtain rfl := eq_of_totalCompare x y hx
          rcases Ordering.then_eq_lt.1 h' with hy | ⟨hy, hys⟩
          · exact Ordering.then_eq_lt.2 (Or.inl hy)
          · exact Ordering.then_eq_lt.2 (Or.inr ⟨hy, lt_transItems xs ys zs hxs hys⟩)

theorem lt_transEntries : ∀ xs ys zs : List (String × Value), totalCompareEntries xs ys = .lt →
    totalCompareEntries ys zs = .lt → totalCompareEntries xs zs = .lt
  | [], ys, zs => fun h h' => by
    cases zs with
    | cons z zs => rfl
    | nil =>
      cases ys with
      | nil => exact h
      | cons y ys => simp [totalCompareEntries] at h'
  | (k, x) :: xs, ys, zs => fun h h' => by
    cases ys with
    | nil => cases h
    | cons y ys =>
      cases zs with
      | nil => cases h'
      | cons z zs =>
        obtain ⟨l, y⟩ := y
        obtain ⟨j, z⟩ := z
        rcases Ordering.then_eq_lt.1 h with hkx | ⟨hkx, hxs⟩
        · refine Ordering.then_eq_lt.2 (Or.inl ?_)
          rcases Ordering.then_eq_lt.1 h' with hly | ⟨hly, -⟩
          · exact lt_transEntry k l j x y z hkx hly
          · obtain ⟨hl, hy⟩ := Ordering.then_eq_eq.1 hly
            obtain rfl := Std.LawfulEqOrd.eq_of_compare hl
            exact eq_of_totalCompare y z hy ▸ hkx
        · obtain ⟨hk, hx⟩ := Ordering.then_eq_eq.1 hkx
          obtain rfl := Std.LawfulEqOrd.eq_of_compare hk
          obtain rfl := eq_of_totalCompare x y hx
          rcases Ordering.then_eq_lt.1 h' with hly | ⟨hly, hys⟩
          · exact Ordering.then_eq_lt.2 (Or.inl hly)
          · exact Ordering.then_eq_lt.2 (Or.inr ⟨hly, lt_transEntries xs ys zs hxs hys⟩)

theorem lt_transEntry (k l j : String) : ∀ x y z : Value,
    (compare k l).then (x.totalCompare y) = .lt → (compare l j).then (y.totalCompare z) = .lt →
    (compare k j).then (x.totalCompare z) = .lt
  | x, y, z => fun h h' => by
    rcases Ordering.then_eq_lt.1 h with hk | ⟨hk, hx⟩
    · refine Ordering.then_eq_lt.2 (Or.inl ?_)
      rcases Ordering.then_eq_lt.1 h' with hl | ⟨hl, -⟩
      · exact Std.TransCmp.lt_trans hk hl
      · exact Std.LawfulEqOrd.eq_of_compare hl ▸ hk
    · obtain rfl := Std.LawfulEqOrd.eq_of_compare hk
      rcases Ordering.then_eq_lt.1 h' with hl | ⟨hl, hy⟩
      · exact Ordering.then_eq_lt.2 (Or.inl hl)
      · exact Ordering.then_eq_lt.2 (Or.inr ⟨hl, lt_trans x y z hx hy⟩)

end

instance : Std.TransCmp totalCompare where
  eq_swap := totalCompare_swap _ _
  isLE_trans := by
    intro u v w huv hvw
    rcases Ordering.isLE_iff_eq_lt_or_eq_eq.1 huv with h | h
    · rcases Ordering.isLE_iff_eq_lt_or_eq_eq.1 hvw with h' | h'
      · exact Ordering.isLE_of_eq_lt (lt_trans u v w h h')
      · exact eq_of_totalCompare v w h' ▸ huv
    · exact eq_of_totalCompare u v h ▸ hvw

instance : Std.LawfulEqCmp totalCompare where
  compare_self := totalCompare_self _
  eq_of_compare := eq_of_totalCompare _ _

end Value

end RuleNet
