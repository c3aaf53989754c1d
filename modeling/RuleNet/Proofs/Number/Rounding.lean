/-
  Rounding to doubles.

  * `scaledMagnitude_lt`: larger magnitude bits stand for larger numbers.
  * `roundMagnitude_mono`, `ofInt_mono`: rounding keeps the order.
  * `roundMagnitude_scaledMagnitude`, `ofInt_truncate`: what is a double already is kept.
  * `ofScaled`: the double of a number given in the smallest unit of doubles.
  * `Fits`: a number is a multiple of `2^e` and has 53 bits beyond that, so that it is a double;
    `exists_magnitude` finds it.
  * `add_ofScaled`: adding a finite double to such a number rounds nothing but the sum.
-/
import RuleNet.Number.Binary64

namespace RuleNet.Binary64

/-! ## Fields -/

theorem twoTo_add (a b : Nat) : twoTo (a + b) = twoTo a * twoTo b := Nat.pow_add 2 a b

theorem twoTo_le {a b : Nat} (h : a ≤ b) : twoTo a ≤ twoTo b := Nat.pow_le_pow_right (by decide) h

theorem infinityMagnitude_lt : infinityMagnitude < twoTo 63 := by decide

theorem magnitude_lt (x : Binary64) : x.magnitude < twoTo 63 := Nat.mod_lt _ (twoTo_pos 63)

section
variable (negative : Bool) {m : Nat} (h : m < twoTo 63)
include h

theorem toNat_make : (make negative m).bits.toNat = (if negative then twoTo 63 else 0) + m := by
  have h63 : twoTo 63 = 9223372036854775808 := by decide
  rw [make, UInt64.toNat_ofNat']
  apply Nat.mod_eq_of_lt
  rw [h63] at h ⊢
  split <;> omega

theorem magnitude_make : (make negative m).magnitude = m := by
  rw [magnitude, toNat_make negative h]
  split
  · rw [Nat.add_mod_left, Nat.mod_eq_of_lt h]
  · rw [Nat.zero_add, Nat.mod_eq_of_lt h]

theorem isNegative_make : (make negative m).isNegative = negative := by
  rw [isNegative, toNat_make negative h]
  cases negative with
  | true => exact decide_eq_true (Nat.le_add_right _ _)
  | false =>
    refine decide_eq_false ?_
    rw [if_neg Bool.false_ne_true, Nat.zero_add]
    exact Nat.not_le.2 h

end

theorem make_self (x : Binary64) : make x.isNegative x.magnitude = x := by
  have h63 : twoTo 63 = 9223372036854775808 := by decide
  have hlt := x.bits.toNat_lt
  have hbits : (make x.isNegative x.magnitude).bits.toNat = x.bits.toNat := by
    rw [toNat_make _ (magnitude_lt x)]
    simp only [isNegative, magnitude, h63, decide_eq_true_eq]
    split <;> omega
  cases x with
  | mk bits => rw [Binary64.mk.injEq]; exact UInt64.toNat_inj.1 hbits

theorem equal_iff {x y : Binary64} :
    x.equal y = true ↔ x.isNaN = false ∧ y.isNaN = false ∧ x.ordinal = y.ordinal := by
  unfold equal partialCompare
  by_cases h : x.isNaN || y.isNaN
  · rw [if_pos h]
    rcases Bool.or_eq_true_iff.1 h with h | h <;> simp [h]
  · rw [if_neg h]
    obtain ⟨hx, hy⟩ := Bool.or_eq_false_iff.1 (Bool.eq_false_iff.2 h)
    simp [hx, hy]

/-! ## Magnitudes -/

theorem scaledMagnitude_normal {e r : Nat} (hr : r < twoTo 52) :
    scaledMagnitude ((e + 1) * twoTo 52 + r) = (twoTo 52 + r) * twoTo e := by
  have hpos := twoTo_pos 52
  have hge : ¬ (e + 1) * twoTo 52 + r < twoTo 52 := by
    have := Nat.le_mul_of_pos_left (twoTo 52) (show 0 < e + 1 by omega)
    omega
  have hdiv : ((e + 1) * twoTo 52 + r) / twoTo 52 = e + 1 := by
    rw [Nat.add_comm, Nat.add_mul_div_right _ _ hpos, Nat.div_eq_of_lt hr, Nat.zero_add]
  have hmod : ((e + 1) * twoTo 52 + r) % twoTo 52 = r := by
    rw [Nat.add_comm, Nat.add_mul_mod_self_right, Nat.mod_eq_of_lt hr]
  rw [scaledMagnitude, if_neg hge, hdiv, hmod, Nat.add_sub_cancel]

/-- Magnitude bits are those of a small number, or an exponent and a fraction. -/
theorem magnitude_cases (m : Nat) :
    m < twoTo 52 ∨ ∃ e r, r < twoTo 52 ∧ m = (e + 1) * twoTo 52 + r := by
  by_cases h : m < twoTo 52
  · exact Or.inl h
  · have hpos := twoTo_pos 52
    have hdiv : 1 ≤ m / twoTo 52 := (Nat.one_le_div_iff hpos).2 (Nat.not_lt.1 h)
    refine Or.inr ⟨m / twoTo 52 - 1, m % twoTo 52, Nat.mod_lt _ hpos, ?_⟩
    rw [Nat.sub_add_cancel hdiv, Nat.mul_comm]
    exact (Nat.div_add_mod m (twoTo 52)).symm

theorem scaledMagnitude_lt {m n : Nat} (h : m < n) : scaledMagnitude m < scaledMagnitude n := by
  have hsmall : ∀ {k}, k < twoTo 52 → scaledMagnitude k = k := fun hk => if_pos hk
  rcases magnitude_cases n with hn | ⟨e, r, hr, rfl⟩
  · rw [hsmall hn, hsmall (Nat.lt_trans h hn)]
    exact h
  · rw [scaledMagnitude_normal hr]
    have hone : ∀ k, twoTo 52 ≤ twoTo 52 * twoTo k := fun k =>
      Nat.le_mul_of_pos_right _ (twoTo_pos k)
    rcases magnitude_cases m with hm | ⟨d, q, hq, rfl⟩
    · rw [hsmall hm, Nat.add_mul]
      have := hone e
      omega
    · rw [scaledMagnitude_normal hq]
      rcases Nat.lt_trichotomy d e with hlt | rfl | hgt
      · have hstep : twoTo (d + 1) ≤ twoTo e := twoTo_le hlt
        rw [twoTo_succ] at hstep
        calc (twoTo 52 + q) * twoTo d < (twoTo 52 + twoTo 52) * twoTo d :=
              Nat.mul_lt_mul_of_pos_right (Nat.add_lt_add_left hq _) (twoTo_pos d)
          _ = twoTo 52 * (twoTo d * 2) := by rw [Nat.add_mul, Nat.mul_comm (twoTo d) 2,
              Nat.two_mul, Nat.mul_add]
          _ ≤ twoTo 52 * twoTo e := Nat.mul_le_mul_left _ hstep
          _ ≤ (twoTo 52 + r) * twoTo e := Nat.mul_le_mul_right _ (Nat.le_add_right _ _)
      · exact Nat.mul_lt_mul_of_pos_right (by omega) (twoTo_pos d)
      · have hmul : (e + 1 + 1) * twoTo 52 ≤ (d + 1) * twoTo 52 :=
          Nat.mul_le_mul_right _ (by omega)
        rw [Nat.add_mul (e + 1) 1] at hmul
        omega

theorem scaledMagnitude_inj {m n : Nat} (h : scaledMagnitude m = scaledMagnitude n) : m = n := by
  rcases Nat.lt_trichotomy m n with hlt | heq | hgt
  · exact absurd h (Nat.ne_of_lt (scaledMagnitude_lt hlt))
  · exact heq
  · exact absurd h (Nat.ne_of_gt (scaledMagnitude_lt hgt))

theorem scaledMagnitude_zero : scaledMagnitude 0 = 0 := if_pos (twoTo_pos 52)

/-! ## Rounding -/

theorem roundQuotient_le (num den : Nat) : roundQuotient num den ≤ num / den + 1 := by
  unfold roundQuotient
  dsimp only
  split
  · omega
  · split
    · omega
    · split <;> omega

theorem le_roundQuotient (num den : Nat) : num / den ≤ roundQuotient num den := by
  unfold roundQuotient
  dsimp only
  split
  · omega
  · split
    · omega
    · split <;> omega

theorem roundQuotient_mono {a b : Nat} (d : Nat) (h : a ≤ b) :
    roundQuotient a d ≤ roundQuotient b d := by
  rcases Nat.lt_or_eq_of_le (Nat.div_le_div_right (c := d) h) with hlt | heq
  · calc roundQuotient a d ≤ a / d + 1 := roundQuotient_le a d
      _ ≤ b / d := hlt
      _ ≤ roundQuotient b d := le_roundQuotient b d
  · have hmod : a % d ≤ b % d := by
      have ha := Nat.div_add_mod a d
      have hb := Nat.div_add_mod b d
      rw [heq] at ha
      omega
    by_cases hbelow : 2 * (b % d) < d
    · have ha : 2 * (a % d) < d := by omega
      exact Nat.le_of_eq (by simp only [roundQuotient, heq, if_pos hbelow, if_pos ha])
    · by_cases habove : d < 2 * (b % d)
      · refine Nat.le_trans (roundQuotient_le a d) ?_
        simp only [roundQuotient, heq, if_neg hbelow, if_pos habove, Nat.le_refl]
      · by_cases ha : 2 * (a % d) < d
        · refine Nat.le_trans (Nat.le_of_eq ?_) (le_roundQuotient b d)
          simp only [roundQuotient, if_pos ha, heq]
        · have hsame : a % d = b % d := by omega
          exact Nat.le_of_eq (by simp only [roundQuotient, heq, hsame])

theorem roundQuotient_mul {q d : Nat} (hd : 0 < d) : roundQuotient (q * d) d = q := by
  unfold roundQuotient
  simp only [Nat.mul_div_cancel q hd, Nat.mul_mod_left, Nat.mul_zero, if_pos hd]

theorem roundMagnitude_le (num den : Nat) : roundMagnitude num den ≤ infinityMagnitude :=
  Nat.min_le_left _ _

/-- Rounding keeps the order: a larger number has at least as large an exponent, and a larger
    exponent alone makes the sum of exponent and quotient larger. -/
theorem roundMagnitude_mono {a b d : Nat} (h : a ≤ b) :
    roundMagnitude a d ≤ roundMagnitude b d := by
  have hdiv : a / d ≤ b / d := Nat.div_le_div_right h
  unfold roundMagnitude
  generalize hp : Nat.log2 (a / d) - 52 = p
  generalize hq : Nat.log2 (b / d) - 52 = q
  have hpq : p ≤ q := by
    by_cases h0 : a / d = 0
    · rw [h0] at hp
      have : p = 0 := by rw [← hp]; decide
      omega
    · have hle : Nat.log2 (a / d) ≤ Nat.log2 (b / d) := by
        have hpos := Nat.lt_of_lt_of_le (Nat.pos_of_ne_zero h0) hdiv
        rw [Nat.le_log2 (Nat.ne_of_gt hpos)]
        exact Nat.le_trans (Nat.log2_self_le h0) hdiv
      omega
  refine Nat.le_min.2 ⟨Nat.min_le_left _ _, Nat.le_trans (Nat.min_le_right _ _) ?_⟩
  rcases Nat.lt_or_eq_of_le hpq with hlt | rfl
  · have hupper : roundQuotient a (d * twoTo p) ≤ twoTo 53 := by
      refine Nat.le_trans (roundQuotient_le _ _) ?_
      rw [← Nat.div_div_eq_div_mul]
      have hlog : a / d < twoTo (p + 53) := by
        refine Nat.lt_of_lt_of_le Nat.lt_log2_self (twoTo_le ?_)
        omega
      rw [Nat.add_comm, twoTo_add] at hlog
      exact Nat.div_lt_of_lt_mul (by rw [Nat.mul_comm]; exact hlog)
    have hlower : twoTo 52 ≤ roundQuotient b (d * twoTo q) := by
      refine Nat.le_trans ?_ (le_roundQuotient _ _)
      rw [← Nat.div_div_eq_div_mul, Nat.le_div_iff_mul_le (twoTo_pos q), ← twoTo_add]
      have hne : b / d ≠ 0 := by
        intro h0
        rw [h0] at hq
        have : q = 0 := by rw [← hq]; decide
        omega
      refine Nat.le_trans (twoTo_le ?_) (Nat.log2_self_le hne)
      omega
    have hstep : (p + 1) * twoTo 52 ≤ q * twoTo 52 := Nat.mul_le_mul_right _ hlt
    rw [Nat.add_mul, Nat.one_mul] at hstep
    have h53 : twoTo 53 = twoTo 52 * 2 := twoTo_succ 52
    omega
  · exact Nat.add_le_add_left (roundQuotient_mono _ h) _

/-- The magnitude of a finite double is not changed by rounding. -/
theorem roundMagnitude_scaledMagnitude {m : Nat} (h : m < infinityMagnitude) :
    roundMagnitude (scaledMagnitude m) 1 = m := by
  rcases magnitude_cases m with hm | ⟨e, r, hr, rfl⟩
  · have hs : scaledMagnitude m = m := if_pos hm
    have hp : Nat.log2 m - 52 = 0 := by
      by_cases h0 : m = 0
      · rw [h0]; decide
      · have := (Nat.log2_lt h0).2 hm
        omega
    have hq := roundQuotient_mul (q := m) (d := 1) Nat.one_pos
    rw [Nat.mul_one] at hq
    rw [roundMagnitude, hs, Nat.div_one, hp, Nat.zero_mul, Nat.zero_add, Nat.one_mul]
    rw [show twoTo 0 = 1 from rfl, hq]
    exact Nat.min_eq_right (Nat.le_of_lt h)
  · rw [scaledMagnitude_normal hr]
    have hlog : Nat.log2 ((twoTo 52 + r) * twoTo e) = 52 + e := by
      have hne : (twoTo 52 + r) * twoTo e ≠ 0 :=
        Nat.ne_of_gt (Nat.mul_pos (Nat.add_pos_left (twoTo_pos 52) r) (twoTo_pos e))
      refine (Nat.log2_eq_iff hne).2 ⟨?_, ?_⟩
      · change twoTo (52 + e) ≤ _
        rw [twoTo_add]
        exact Nat.mul_le_mul_right _ (Nat.le_add_right _ _)
      · change _ < twoTo (52 + e + 1)
        rw [Nat.add_right_comm, twoTo_add]
        refine Nat.mul_lt_mul_of_pos_right ?_ (twoTo_pos e)
        have h53 : twoTo (52 + 1) = twoTo 52 * 2 := twoTo_succ 52
        omega
    rw [roundMagnitude, Nat.div_one, hlog, Nat.add_sub_cancel_left, Nat.one_mul,
      roundQuotient_mul (twoTo_pos e)]
    rw [Nat.add_mul, Nat.one_mul, Nat.add_assoc] at h ⊢
    exact Nat.min_eq_right (Nat.le_of_lt h)

/-! ## Integers as doubles -/

theorem magnitude_ofInt (i : Int) :
    (ofInt i).magnitude = roundMagnitude (i.natAbs * twoTo 1074) 1 :=
  magnitude_make _ (Nat.lt_of_le_of_lt (roundMagnitude_le _ _) infinityMagnitude_lt)

theorem isNegative_ofInt (i : Int) : (ofInt i).isNegative = decide (i < 0) :=
  isNegative_make _ (Nat.lt_of_le_of_lt (roundMagnitude_le _ _) infinityMagnitude_lt)

theorem isNaN_ofInt (i : Int) : (ofInt i).isNaN = false := by
  rw [isNaN, magnitude_ofInt]
  exact decide_eq_false (Nat.not_lt.2 (roundMagnitude_le _ _))

/-- Integers of 64 bits are in the range of doubles. -/
theorem magnitude_ofInt_lt {i : Int} (h : Integer64.holds i = true) :
    (ofInt i).magnitude < infinityMagnitude := by
  have h' := Integer64.holds_iff.1 h
  simp only [Integer64.least, Integer64.greatest] at h'
  have hle : i.natAbs ≤ twoTo 63 := by
    have h63 : twoTo 63 = 9223372036854775808 := by decide
    omega
  have htop : roundMagnitude (twoTo 63 * twoTo 1074) 1 < infinityMagnitude := by decide +kernel
  rw [magnitude_ofInt]
  exact Nat.lt_of_le_of_lt (roundMagnitude_mono (Nat.mul_le_mul_right _ hle)) htop

/-- A larger integer has no smaller double, in the order of all bit patterns. -/
theorem ofInt_mono {i j : Int} (h : i ≤ j) : (ofInt i).totalOrdinal ≤ (ofInt j).totalOrdinal := by
  simp only [totalOrdinal, isNegative_ofInt, magnitude_ofInt, decide_eq_true_eq]
  by_cases hi : i < 0
  · rw [if_pos hi]
    by_cases hj : j < 0
    · rw [if_pos hj]
      have habs : j.natAbs ≤ i.natAbs := by omega
      have := roundMagnitude_mono (d := 1) (Nat.mul_le_mul_right (twoTo 1074) habs)
      omega
    · rw [if_neg hj]
      omega
  · have hj : ¬ j < 0 := by omega
    rw [if_neg hi, if_neg hj]
    have habs : i.natAbs ≤ j.natAbs := by omega
    have := roundMagnitude_mono (d := 1) (Nat.mul_le_mul_right (twoTo 1074) habs)
    omega

/-! ## Whole numbers -/

theorem scaled_eq_iff {x y : Binary64} : x.scaled = y.scaled ↔ x.ordinal = y.ordinal := by
  have hzero : ∀ {m : Nat}, scaledMagnitude m = 0 → m = 0 := fun h =>
    scaledMagnitude_inj (h.trans scaledMagnitude_zero.symm)
  have hx := hzero (m := x.magnitude)
  have hy := hzero (m := y.magnitude)
  have hinj := scaledMagnitude_inj (m := x.magnitude) (n := y.magnitude)
  have hsame : x.magnitude = y.magnitude →
      scaledMagnitude x.magnitude = scaledMagnitude y.magnitude := congrArg scaledMagnitude
  have hxz : x.magnitude = 0 → scaledMagnitude x.magnitude = 0 := fun h => by
    rw [h, scaledMagnitude_zero]
  have hyz : y.magnitude = 0 → scaledMagnitude y.magnitude = 0 := fun h => by
    rw [h, scaledMagnitude_zero]
  unfold scaled ordinal
  cases x.isNegative with
  | true =>
    cases y.isNegative with
    | true => simp only [if_true]; omega
    | false => simp only [if_true, Bool.false_eq_true, if_false]; omega
  | false =>
    cases y.isNegative with
    | true => simp only [if_true, Bool.false_eq_true, if_false]; omega
    | false => simp only [Bool.false_eq_true, if_false]; omega

theorem magnitude_eq_natAbs (x : Binary64) : x.magnitude = x.ordinal.natAbs := by
  unfold ordinal
  split <;> omega

theorem natAbs_scaled (x : Binary64) : x.scaled.natAbs = scaledMagnitude x.magnitude := by
  unfold scaled
  split <;> omega

/-- A double without a fraction is its truncation times the unit. -/
theorem scaled_of_isIntegral {x : Binary64} (h : x.isIntegral = true) :
    x.scaled = x.truncate * twoTo 1074 := by
  obtain ⟨-, hmod⟩ := Bool.and_eq_true_iff.1 h
  exact (Int.tdiv_mul_cancel (Int.dvd_of_emod_eq_zero (beq_iff_eq.1 hmod))).symm

theorem scaled_neg_iff (x : Binary64) :
    x.scaled < 0 ↔ x.isNegative = true ∧ x.magnitude ≠ 0 := by
  have hz : x.magnitude = 0 → scaledMagnitude x.magnitude = 0 := fun h => by
    rw [h, scaledMagnitude_zero]
  have hm : scaledMagnitude x.magnitude = 0 → x.magnitude = 0 := fun h =>
    scaledMagnitude_inj (h.trans scaledMagnitude_zero.symm)
  unfold scaled
  cases x.isNegative with
  | true => simp only [if_true, true_and]; omega
  | false => simp only [Bool.false_eq_true, if_false, false_and, iff_false]; omega

/-- A double without a fraction is the double of its integer. -/
theorem ofInt_truncate {x : Binary64} (h : x.isIntegral = true) :
    (ofInt x.truncate).ordinal = x.ordinal := by
  have hscaled := scaled_of_isIntegral h
  obtain ⟨hfin, -⟩ := Bool.and_eq_true_iff.1 h
  have hlt : x.magnitude < infinityMagnitude := of_decide_eq_true hfin
  have habs := natAbs_scaled x
  have hneg := scaled_neg_iff x
  generalize x.truncate = i at hscaled ⊢
  have hpos : (0 : Int) < twoTo 1074 := Int.natCast_pos.2 (twoTo_pos 1074)
  have hsign : i < 0 ↔ x.scaled < 0 := by
    rw [hscaled]
    constructor
    · exact fun h => Int.mul_neg_of_neg_of_pos h hpos
    · intro h
      apply Decidable.byContradiction
      intro hi
      exact absurd h (Int.not_lt.2 (Int.mul_nonneg (Int.not_lt.1 hi) (Int.le_of_lt hpos)))
  have hmag : (ofInt i).magnitude = x.magnitude := by
    rw [hscaled, Int.natAbs_mul, Int.natAbs_natCast] at habs
    rw [magnitude_ofInt, habs, roundMagnitude_scaledMagnitude hlt]
  simp only [ordinal, isNegative_ofInt, hmag, decide_eq_true_eq, hsign, hneg]
  by_cases hm : x.magnitude = 0
  · simp [hm]
  · simp [hm]

/-- Equal doubles have the same integer part, and both have a fraction or neither. -/
theorem truncate_of_ordinal {x y : Binary64} (h : x.ordinal = y.ordinal) :
    x.truncate = y.truncate ∧ x.isIntegral = y.isIntegral := by
  have hscaled := scaled_eq_iff.2 h
  have hmag : x.magnitude = y.magnitude := by
    rw [magnitude_eq_natAbs, magnitude_eq_natAbs, h]
  exact ⟨by rw [truncate, truncate, hscaled], by
    simp only [isIntegral, isFinite, hscaled, hmag]⟩

theorem isNaN_of_isIntegral {x : Binary64} (h : x.isIntegral = true) : x.isNaN = false := by
  obtain ⟨hfin, -⟩ := Bool.and_eq_true_iff.1 h
  have hlt : x.magnitude < infinityMagnitude := of_decide_eq_true hfin
  exact decide_eq_false (Nat.not_lt.2 (Nat.le_of_lt hlt))

/-! ## Sums -/

/-- Adding nothing changes no integer's double. -/
theorem ofInt_add_zero (i : Int) : (ofInt i).add zero = ofInt i := by
  have hz : zero.isNaN = false ∧ zero.isFinite = true ∧ zero.scaled = 0 ∧ zero.isNegative = false :=
    by decide
  obtain ⟨hnan, hfin, hscaled, hneg⟩ := hz
  have hi := isNaN_ofInt i
  by_cases hf : (ofInt i).isFinite = true
  · simp only [add, hi, hnan, hf, hfin, hscaled, hneg, Bool.false_eq_true, if_false, Bool.not_true,
      Int.add_zero, Bool.and_false]
    split
    · next hzero =>
      have hmag : (ofInt i).magnitude = 0 := by
        have habs := natAbs_scaled (ofInt i)
        rw [hzero] at habs
        exact scaledMagnitude_inj (habs.symm.trans scaledMagnitude_zero.symm)
      have hpos : ¬ i < 0 := by
        intro hlt
        have hone : 1 ≤ i.natAbs := by omega
        have hle := roundMagnitude_mono (d := 1) (Nat.mul_le_mul_right (twoTo 1074) hone)
        rw [← magnitude_ofInt, hmag] at hle
        have hunit : 0 < roundMagnitude (1 * twoTo 1074) 1 := by decide +kernel
        omega
      have hsign : (ofInt i).isNegative = false := by
        rw [isNegative_ofInt]
        exact decide_eq_false hpos
      rw [← make_self (ofInt i), hsign, hmag]
    · next hne =>
      have hlt : (ofInt i).magnitude < infinityMagnitude := of_decide_eq_true hf
      have hmag : (ofInt i).magnitude ≠ 0 := by
        intro hm
        have habs := natAbs_scaled (ofInt i)
        rw [hm, scaledMagnitude_zero] at habs
        exact hne (Int.natAbs_eq_zero.1 habs)
      have hsign : decide ((ofInt i).scaled < 0) = (ofInt i).isNegative := by
        rw [Bool.eq_iff_iff, decide_eq_true_eq, scaled_neg_iff]
        exact ⟨fun h => h.1, fun h => ⟨h, hmag⟩⟩
      rw [round, natAbs_scaled, roundMagnitude_scaledMagnitude hlt, hsign, make_self]
  · simp only [Bool.not_eq_true] at hf
    simp only [add, hi, hnan, hf, hfin, Bool.false_eq_true, if_false, Bool.not_true, Bool.not_false,
      if_true, Bool.false_and]

/-! ## Numbers of 53 bits -/

/-- The double of `t / 2^1074`, rounded; nothing is the positive zero. -/
def ofScaled (t : Int) : Binary64 := if t = 0 then zero else round (t < 0) t.natAbs 1

/-- Whether a number has at most 53 bits, counted from the place of `2^e`. -/
def Fits (e : Nat) (t : Int) : Prop := ∃ k, k < twoTo 53 ∧ t.natAbs = k * twoTo e

/-- A number of 53 bits that is not too large is that of a double. The induction is on the place of
    its last bit: a number with less than 53 bits is moved up until it has as many. -/
theorem exists_magnitude (e : Nat) : ∀ k, k < twoTo 53 → e ≤ 2045 →
    ∃ m, m < infinityMagnitude ∧ scaledMagnitude m = k * twoTo e := by
  have h53 : twoTo 53 = twoTo 52 * 2 := twoTo_succ 52
  have hinfinity : infinityMagnitude = 2047 * twoTo 52 := rfl
  induction e with
  | zero =>
    intro k hk _
    by_cases hsmall : k < twoTo 52
    · exact ⟨k, by omega, (if_pos hsmall).trans (Nat.mul_one k).symm⟩
    · have hr : k - twoTo 52 < twoTo 52 := by omega
      refine ⟨(0 + 1) * twoTo 52 + (k - twoTo 52), by omega, ?_⟩
      rw [scaledMagnitude_normal hr, Nat.add_sub_cancel' (Nat.not_lt.1 hsmall)]
  | succ e ih =>
    intro k hk he
    by_cases hsmall : k < twoTo 52
    · obtain ⟨m, hm, heq⟩ := ih (k * 2) (by omega) (by omega)
      exact ⟨m, hm, by rw [heq, twoTo_succ, Nat.mul_assoc, Nat.mul_comm 2]⟩
    · have hr : k - twoTo 52 < twoTo 52 := by omega
      refine ⟨(e + 1 + 1) * twoTo 52 + (k - twoTo 52), ?_, ?_⟩
      · have hle : (e + 1 + 1) * twoTo 52 ≤ 2046 * twoTo 52 := Nat.mul_le_mul_right _ (by omega)
        omega
      · rw [scaledMagnitude_normal hr, Nat.add_sub_cancel' (Nat.not_lt.1 hsmall)]

/-- A number of 53 bits is kept by rounding. -/
theorem scaled_ofScaled {e : Nat} {t : Int} (he : e ≤ 2045) (ht : Fits e t) :
    (ofScaled t).isFinite = true ∧ (ofScaled t).isNegative = decide (t < 0) ∧
      (ofScaled t).scaled = t := by
  unfold ofScaled
  split
  · next hzero =>
    rw [hzero]
    decide
  · obtain ⟨k, hk, habs⟩ := ht
    obtain ⟨m, hm, heq⟩ := exists_magnitude e k hk he
    have hlt : m < twoTo 63 := Nat.lt_trans hm infinityMagnitude_lt
    rw [round, habs, ← heq, roundMagnitude_scaledMagnitude hm, isFinite, magnitude_make _ hlt,
      isNegative_make _ hlt, scaled, magnitude_make _ hlt, isNegative_make _ hlt, heq, ← habs]
    refine ⟨decide_eq_true hm, rfl, ?_⟩
    simp only [decide_eq_true_eq]
    split <;> omega

theorem isNaN_of_isFinite {x : Binary64} (h : x.isFinite = true) : x.isNaN = false :=
  decide_eq_false (Nat.not_lt.2 (Nat.le_of_lt (of_decide_eq_true h)))

/-- Adding to a number of 53 bits is adding, and rounding once. -/
theorem add_ofScaled {e : Nat} {t : Int} {x : Binary64} (he : e ≤ 2045) (ht : Fits e t)
    (hx : x.isFinite = true) : (ofScaled t).add x = ofScaled (t + x.scaled) := by
  obtain ⟨hfinite, hneg, hscaled⟩ := scaled_ofScaled he ht
  have hle : x.isNegative = true → x.scaled ≤ 0 := fun hneg => by
    rw [scaled, if_pos hneg]
    omega
  simp only [add, isNaN_of_isFinite hfinite, isNaN_of_isFinite hx, hfinite, hx, hneg, hscaled,
    Bool.false_eq_true, if_false, Bool.not_true]
  unfold ofScaled
  split
  · next hzero =>
    have hsign : (decide (t < 0) && x.isNegative) = false := by
      rw [Bool.eq_false_iff, ne_eq, Bool.and_eq_true, decide_eq_true_eq]
      rintro ⟨hlt, hsign⟩
      have := hle hsign
      omega
    rw [hsign]
    rfl
  · rfl

theorem neg_of_isFinite {x : Binary64} (h : x.isFinite = true) :
    x.neg.isFinite = true ∧ x.neg.scaled = -x.scaled := by
  have hneg : x.neg = make (!x.isNegative) x.magnitude := by
    rw [neg, isNaN_of_isFinite h]
    rfl
  rw [hneg, isFinite, scaled, scaled, magnitude_make _ x.magnitude_lt,
    isNegative_make _ x.magnitude_lt]
  refine ⟨h, ?_⟩
  cases x.isNegative <;> simp

end RuleNet.Binary64
