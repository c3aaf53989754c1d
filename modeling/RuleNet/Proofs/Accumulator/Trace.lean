/-
  What a fact that has come and gone leaves behind in a sum.

  * `Accumulator.remove_add`: an addition taken back leaves everything as it was but the sum of
    doubles, which is rounded twice if other doubles are in it.
  * `Value.Fine`: doubles that are whole multiples of one unit and together less than `2^53` of
    them, so that no sum of them is rounded.
  * `Accumulator.exact_run`: where the doubles that stand are so at all times, the sum of doubles is
    the exact one of what stands.
  * `Accumulator.trace_of_run`: the result depends on what stands alone, unless sums of doubles have
    been rounded.
-/
import Mathlib.Algebra.BigOperators.Ring.List
import Mathlib.Algebra.GroupWithZero.Nat
import Mathlib.Algebra.Ring.Int.Defs
import Mathlib.Data.List.Infix
import RuleNet.Proofs.Accumulator.Rescan
import RuleNet.Proofs.Number.Rounding

namespace RuleNet

/-! ## Doubles without rounding -/

namespace Value

/-- What a value adds to a sum of doubles, in the smallest unit of doubles. -/
def doubleAddend : Value → Int
  | double x => x.scaled
  | _ => 0

/-- The exact sum of the doubles among values, in the smallest unit of doubles. -/
def doubleSum (values : List Value) : Int := (values.map doubleAddend).sum

/-- The sum of the absolute values of the doubles among values. -/
def doubleSize (values : List Value) : Nat :=
  (values.map fun v => v.doubleAddend.natAbs).sum

/-- Whether a value, if it is a double, is a whole multiple of the unit `2^e / 2^1074`. -/
def isMultiple (e : Nat) : Value → Bool
  | double x => x.isFinite && x.scaled.natAbs % twoTo e == 0
  | _ => true

/-- The doubles among values are whole multiples of a unit, and together less than `2^53` of them. -/
def Fine (e : Nat) (values : List Value) : Prop :=
  (∀ v ∈ values, v.isMultiple e = true) ∧ doubleSize values < twoTo 53 * twoTo e

instance (e : Nat) (values : List Value) : Decidable (Fine e values) :=
  inferInstanceAs (Decidable (_ ∧ _))

variable {e : Nat} {v : Value} {values vs ws : List Value}

theorem doubleSum_cons (v : Value) (values : List Value) :
    doubleSum (v :: values) = v.doubleAddend + doubleSum values := List.sum_cons

theorem doubleSize_cons (v : Value) (values : List Value) :
    doubleSize (v :: values) = v.doubleAddend.natAbs + doubleSize values := List.sum_cons

theorem doubleSum_cons_of_not_double (hv : v.isDouble = false) :
    doubleSum (v :: values) = doubleSum values := by
  rw [doubleSum_cons]
  cases v with
  | double x => cases hv
  | _ => exact Int.zero_add _

theorem doubleSum_perm (h : vs.Perm ws) : doubleSum vs = doubleSum ws :=
  (h.map doubleAddend).sum_eq

theorem doubleSize_perm (h : vs.Perm ws) : doubleSize vs = doubleSize ws :=
  (h.map _).sum_nat

theorem Fine.perm (h : Fine e vs) (hp : vs.Perm ws) : Fine e ws :=
  ⟨fun v hv => h.1 v (hp.mem_iff.2 hv), doubleSize_perm hp ▸ h.2⟩

theorem Fine.rest (h : Fine e (v :: vs)) : Fine e vs :=
  ⟨fun w hw => h.1 w (List.mem_cons_of_mem _ hw),
    Nat.lt_of_le_of_lt (Nat.le_add_left _ _) (doubleSize_cons v vs ▸ h.2)⟩

theorem isFinite_of_isMultiple {x : Binary64} (h : (double x).isMultiple e = true) :
    x.isFinite = true := (Bool.and_eq_true_iff.1 h).1

theorem dvd_doubleAddend (h : v.isMultiple e = true) : (twoTo e : Int) ∣ v.doubleAddend := by
  cases v with
  | double x =>
    have hmod := beq_iff_eq.1 (Bool.and_eq_true_iff.1 h).2
    exact Int.ofNat_dvd_left.2 (Nat.dvd_of_mod_eq_zero hmod)
  | _ => exact Int.dvd_zero _

theorem natAbs_doubleSum_le (values : List Value) :
    (doubleSum values).natAbs ≤ doubleSize values := by
  induction values with
  | nil => exact Nat.le_refl 0
  | cons v rest ih =>
    rw [doubleSum_cons, doubleSize_cons]
    omega

/-- Doubles of this kind have a sum of 53 bits. -/
theorem Fine.fits (h : Fine e values) : Binary64.Fits e (doubleSum values) := by
  have haddends : ∀ t ∈ values.map doubleAddend, (twoTo e : Int) ∣ t :=
    List.forall_mem_map.2 fun v hv => dvd_doubleAddend (h.1 v hv)
  have hdvd : twoTo e ∣ (doubleSum values).natAbs := Int.ofNat_dvd_left.1 (List.dvd_sum haddends)
  have hlt := Nat.lt_of_le_of_lt (natAbs_doubleSum_le values) h.2
  rw [Nat.mul_comm] at hlt
  exact ⟨_, Nat.div_lt_of_lt_mul hlt, (Nat.div_mul_cancel hdvd).symm⟩

theorem doubleSum_eq_zero (h : values.countP isDouble = 0) : doubleSum values = 0 := by
  induction values with
  | nil => rfl
  | cons v rest ih =>
    rw [List.countP_eq_zero, List.forall_mem_cons, Bool.not_eq_true] at h
    rw [doubleSum_cons_of_not_double h.1, ih (List.countP_eq_zero.2 h.2)]

end Value

namespace Accumulator

variable {acc : Accumulator} {fold : Fold} {acts acts' : List Act} {h : Handle} {v : Value}
  {vs : List Value} {e : Nat}

/-! ## An addition taken back -/

/-- The sum of doubles when a value has come and gone. -/
def shaken (acc : Accumulator) : Value → Binary64
  | .double x => if acc.doubleCount = 0 then .zero else (acc.doubleSum.add x).add x.neg
  | _ => acc.doubleSum

theorem leave_enter (hf : acc.fold.needsNumbers = true) (v : Value) :
    (acc.enter v).leave v = { acc with doubleSum := acc.shaken v } := by
  obtain ⟨fold, contributions, integers, doubles, doubleCount, numberCount, ordered⟩ := acc
  cases fold <;> cases hf
  all_goals
    cases v with
    | integer i => simp only [enter, leave, shaken, Int.add_sub_cancel, Nat.add_sub_cancel]
    | double x => simp only [enter, leave, shaken, Nat.add_sub_cancel]
    | _ => rfl

theorem remove_of_none (hnew : acc.contributions[h]? = none) : acc.remove h = acc := by
  rw [remove, hnew]

/-- Counting a value out does not look at the contributions. -/
theorem leave_with_contributions (hf : acc.fold.needsNumbers = true) (v : Value)
    (contributions : Std.ExtTreeMap Handle Value) :
    { acc with contributions }.leave v = { acc.leave v with contributions } := by
  obtain ⟨fold, others, integers, doubles, doubleCount, numberCount, ordered⟩ := acc
  cases fold <;> cases hf
  all_goals cases v <;> rfl

/-- What an addition leaves that is taken back. -/
theorem remove_add (hf : acc.fold.needsNumbers = true) (hnew : acc.contributions[h]? = none)
    (v : Value) : (acc.add h v).remove h = { acc with doubleSum := acc.shaken v } := by
  have hback : (acc.contributions.insert h v).erase h = acc.contributions := by
    refine Std.ExtTreeMap.ext_getElem? fun i => ?_
    rw [Std.ExtTreeMap.getElem?_erase, Std.ExtTreeMap.getElem?_insert]
    simp only [Nat.compare_eq_eq]
    by_cases hi : h = i
    · rw [if_pos hi, ← hi, hnew]
    · rw [if_neg hi, if_neg hi]
  have hadd : acc.add h v =
      { acc.enter v with contributions := acc.contributions.insert h v } := by
    rw [add, remove_of_none hnew, contributions_enter]
  have hfound : (acc.contributions.insert h v)[h]? = some v := by simp
  have hfold : (acc.enter v).fold.needsNumbers = true := by rwa [fold_enter]
  rw [hadd, remove]
  simp only [hfound, hback]
  rw [leave_with_contributions hfold, leave_enter hf]

theorem Sums.doubleCount_eq_zero (hsums : acc.Sums vs) (hnone : ∀ w ∈ vs, w.isDouble = false) :
    acc.doubleCount = 0 := by
  rw [hsums.doubles, List.countP_eq_zero]
  exact fun w hw => Bool.not_eq_true _ ▸ hnone w hw

/-- A sum with no doubles in it starts again when one has come and gone. -/
theorem shaken_eq_of_none (hsums : acc.Sums vs) (hzero : acc.doubleCount = 0) (v : Value) :
    acc.shaken v = acc.doubleSum := by
  cases v with
  | double x => exact (if_pos hzero).trans (hsums.fresh hzero).symm
  | _ => rfl

/-! ## Sums that are not rounded -/

/-- The sum of doubles is the exact one of what contributes. -/
def Exact (acc : Accumulator) : Prop :=
  acc.doubleSum = .ofScaled (Value.doubleSum acc.contributions.values)

/-- At all times the doubles that stand are multiples of one unit, and few enough of them. -/
def Unrounded (fold : Fold) (acts : List Act) : Prop :=
  ∃ e ≤ 2045, ∀ before, before <+: acts → Value.Fine e (run fold before).contributions.values

theorem doubleSum_enter (hf : acc.fold.needsNumbers = true) (he : e ≤ 2045)
    (hfine : Value.Fine e (v :: vs)) (hsum : acc.doubleSum = .ofScaled (Value.doubleSum vs)) :
    (acc.enter v).doubleSum = .ofScaled (Value.doubleSum (v :: vs)) := by
  obtain ⟨fold, contributions, integers, doubles, doubleCount, numberCount, ordered⟩ := acc
  cases fold <;> cases hf
  all_goals
    cases v with
    | double x =>
      have hfinite := Value.isFinite_of_isMultiple (hfine.1 _ List.mem_cons_self)
      refine (congrArg (·.add x) hsum).trans ?_
      rw [Binary64.add_ofScaled he hfine.rest.fits hfinite, Int.add_comm]
      rfl
    | _ => rwa [Value.doubleSum_cons_of_not_double rfl]

theorem doubleSum_leave (hf : acc.fold.needsNumbers = true) (he : e ≤ 2045)
    (hsums : acc.Sums (v :: vs)) (hfine : Value.Fine e (v :: vs))
    (hsum : acc.doubleSum = .ofScaled (Value.doubleSum (v :: vs))) :
    (acc.leave v).doubleSum = .ofScaled (Value.doubleSum vs) := by
  have hcount := hsums.doubles
  obtain ⟨fold, contributions, integers, doubles, doubleCount, numberCount, ordered⟩ := acc
  cases fold <;> cases hf
  all_goals
    cases v with
    | double x =>
      obtain ⟨hfinite, hscaled⟩ := Binary64.neg_of_isFinite
        (Value.isFinite_of_isMultiple (hfine.1 _ List.mem_cons_self))
      simp only at hsum hcount
      rw [List.countP_cons_of_pos rfl] at hcount
      simp only [leave, hcount, Nat.add_sub_cancel]
      split
      · next hzero => rw [Value.doubleSum_eq_zero hzero]; rfl
      · rw [hsum, Binary64.add_ofScaled he hfine.fits hfinite, hscaled, Value.doubleSum_cons,
          Value.doubleAddend, Int.add_comm, Int.neg_add_cancel_left]
    | _ => rwa [Value.doubleSum_cons_of_not_double rfl] at hsum

theorem Exact.remove (hexact : acc.Exact) (hf : acc.fold.needsNumbers = true)
    (hreg : acc.Regular) (he : e ≤ 2045) (hfine : Value.Fine e acc.contributions.values)
    (h : Handle) : (acc.remove h).Exact := by
  unfold Exact Accumulator.remove
  split
  · next v hv =>
    have hperm := values_erase_perm hv
    refine doubleSum_leave hf he ((hreg.sums hf).perm hperm) (hfine.perm hperm) ?_
    rw [hexact, Value.doubleSum_perm hperm]
  · exact hexact

theorem values_add_perm (acc : Accumulator) (h : Handle) (v : Value) :
    (acc.add h v).contributions.values.Perm (v :: (acc.remove h).contributions.values) := by
  have hnew : (acc.remove h).contributions[h]? = none := by
    rw [contributions_remove, if_pos rfl]
  simp only [Accumulator.add, contributions_enter]
  exact values_insert_perm hnew

theorem Exact.add (hexact : acc.Exact) (hf : acc.fold.needsNumbers = true)
    (hreg : acc.Regular) (he : e ≤ 2045) (hfine : Value.Fine e acc.contributions.values)
    (hfine' : Value.Fine e (acc.add h v).contributions.values) : (acc.add h v).Exact := by
  have hperm := values_add_perm acc h v
  have hrest : (acc.remove h).fold.needsNumbers = true := by rwa [fold_remove]
  unfold Exact
  rw [Value.doubleSum_perm hperm]
  exact doubleSum_enter hrest he (hfine'.perm hperm) (hexact.remove hf hreg he hfine h)

/-- Sums of doubles are exact along a history in which none is rounded. -/
theorem exact_run (hf : fold.needsNumbers = true) (hun : Unrounded fold acts) :
    (run fold acts).Exact := by
  obtain ⟨e, he, hfine⟩ := hun
  induction acts using List.reverseRecOn with
  | nil =>
    have hnone : (∅ : Std.ExtTreeMap Handle Value).values = [] := by
      rw [values_eq_map_toList]
      rfl
    unfold Exact
    rw [show (run fold []).contributions = ∅ from rfl, hnone]
    rfl
  | append_singleton acts act ih =>
    have hexact := ih fun before hb => hfine before (hb.trans (List.prefix_append acts [act]))
    have hold := hfine acts (List.prefix_append acts [act])
    have hnew := hfine _ (List.prefix_refl (acts ++ [act]))
    have hneeds : (run fold acts).fold.needsNumbers = true := by rwa [fold_run]
    rw [run_snoc] at hnew ⊢
    cases act with
    | add i w => exact hexact.add hneeds (regular_run fold acts) he hold hnew
    | remove i => exact hexact.remove hneeds (regular_run fold acts) he hold i

/-- An addition taken back leaves the exact sum of doubles, if it was not rounded. -/
theorem shaken_eq (he : e ≤ 2045) (hsums : acc.Sums vs) (hfine : Value.Fine e (v :: vs))
    (hsum : acc.doubleSum = .ofScaled (Value.doubleSum vs)) : acc.shaken v = acc.doubleSum := by
  cases v with
  | double x =>
    have hx := Value.isFinite_of_isMultiple (hfine.1 _ List.mem_cons_self)
    obtain ⟨hfinite, hscaled⟩ := Binary64.neg_of_isFinite hx
    rw [shaken]
    split
    · next hzero => exact (hsums.fresh hzero).symm
    · rw [hsum, Binary64.add_ofScaled he hfine.rest.fits hx, Int.add_comm]
      refine (Binary64.add_ofScaled he hfine.fits hfinite).trans ?_
      rw [hscaled, Value.doubleSum_cons, Value.doubleAddend, Int.add_comm, Int.neg_add_cancel_left]
  | _ => rfl

/-! ## The law -/

/-- The result of a sum or an average is one of the sums and numbers kept. -/
theorem result?_eq_of_sums {acc' : Accumulator} (hf : acc.fold.needsNumbers = true)
    (hfold : acc'.fold = acc.fold) (hsums : acc.Sums vs) (hsums' : acc'.Sums vs)
    (hdoubles : acc'.doubleSum = acc.doubleSum) : acc'.result? = acc.result? := by
  have hintegers := hsums'.integers.trans hsums.integers.symm
  have hnumbers := hsums'.numbers.trans hsums.numbers.symm
  have hcount := hsums'.doubles.trans hsums.doubles.symm
  cases h : acc.fold with
  | sum f | average f =>
    simp only [result?, total, doubleTotal, hfold, h, hintegers, hnumbers, hcount, hdoubles]
  | count | least f | greatest f | distinct f | list f =>
    rw [h] at hf
    cases hf

/-- A fact that comes and goes leaves no trace in a sum or an average, unless it brings a double
    beside others and sums are rounded: then the sum of doubles has been rounded twice, and nothing
    else has changed. Without rounding the result depends on what stands alone. -/
theorem trace_of_run (hf : fold.needsNumbers = true) (hnew : ∀ w, ¬ Stands acts h w) (v : Value) :
    (v.isDouble = false ∨ (∀ i w, Stands acts i w → w.isDouble = false) ∨
        Unrounded fold (acts ++ [.add h v]) →
      run fold (acts ++ [.add h v, .remove h]) = run fold acts) ∧
    (∀ x i y, v = .double x → Stands acts i (.double y) →
      run fold (acts ++ [.add h v, .remove h]) =
        { run fold acts with doubleSum := ((run fold acts).doubleSum.add x).add x.neg }) ∧
    ∀ acts', (∀ i w, Stands acts' i w ↔ Stands acts i w) →
      (∀ i w, Stands acts i w → w.isDouble = false) ∨ Unrounded fold acts ∧ Unrounded fold acts' →
      (run fold acts').result? = (run fold acts).result? := by
  have hneeds : (run fold acts).fold.needsNumbers = true := by rwa [fold_run]
  have hsums := (regular_run fold acts).sums hneeds
  have hzero : (∀ i w, Stands acts i w → w.isDouble = false) → (run fold acts).doubleCount = 0 := by
    refine fun hnone => hsums.doubleCount_eq_zero fun w hw => ?_
    obtain ⟨i, hs⟩ := mem_values_run.1 hw
    exact hnone i w hs
  have hfree : (run fold acts).contributions[h]? = none := contributions_run_eq_none.2 hnew
  have hback : run fold (acts ++ [.add h v, .remove h]) =
      { run fold acts with doubleSum := (run fold acts).shaken v } := by
    rw [← remove_add hneeds hfree v, List.append_cons, run_snoc, run_snoc]
    rfl
  refine ⟨fun hcase => ?_, fun x i y hv hs => ?_, fun acts' hsame hcase => ?_⟩
  · have hshaken : (run fold acts).shaken v = (run fold acts).doubleSum := by
      rcases hcase with hv | hnone | ⟨e, he, hfine⟩
      · cases v with
        | double x => cases hv
        | _ => rfl
      · exact shaken_eq_of_none hsums (hzero hnone) v
      · have hexact := exact_run hf ⟨e, he, fun before hb =>
          hfine before (hb.trans (List.prefix_append acts _))⟩
        have hadded := hfine _ (List.prefix_refl _)
        rw [run_snoc] at hadded
        have hperm := values_add_perm (run fold acts) h v
        rw [remove_of_none hfree] at hperm
        exact shaken_eq he hsums (hadded.perm hperm) hexact
    rw [hback, hshaken]
  · have hcount : (run fold acts).doubleCount ≠ 0 := by
      rw [hsums.doubles]
      exact Nat.ne_of_gt (List.countP_pos_iff.2 ⟨_, mem_values_run.2 ⟨i, hs⟩, rfl⟩)
    rw [hback, hv, shaken, if_neg hcount]
  · have hcontributions := contributions_eq hsame fold fold
    have hfold : (run fold acts').fold = (run fold acts).fold := by rw [fold_run, fold_run]
    have hsums' := (regular_run fold acts').sums (hfold ▸ hneeds)
    rw [hcontributions] at hsums'
    refine result?_eq_of_sums hneeds hfold hsums hsums' ?_
    rcases hcase with hnone | ⟨hun, hun'⟩
    · have hcount := hsums'.doubles.trans hsums.doubles.symm
      rw [hsums.fresh (hzero hnone), hsums'.fresh (hcount.trans (hzero hnone))]
    · rw [exact_run hf hun, exact_run hf hun', hcontributions]

/-- A half stands beside an integer, after a quarter has gone. -/
def portions : List Act :=
  [.add 1 (.double ⟨0x3fe0000000000000⟩), .add 3 (.double ⟨0x3fd0000000000000⟩),
    .add 2 (.integer 3), .remove 3]

theorem trace_of_run_portions :
    let acts' := [.add 2 (.integer 3), .add 1 (.double ⟨0x3fe0000000000000⟩)]
    let added := .add 3 (.double ⟨0x3fe8000000000000⟩)
    (Fold.sum "amount").needsNumbers = true ∧ (∀ w, ¬ Stands portions 3 w) ∧
    Unrounded (.sum "amount") (portions ++ [added]) ∧
    run (.sum "amount") (portions ++ [added, .remove 3]) = run (.sum "amount") portions ∧
    (∀ i w, Stands acts' i w ↔ Stands portions i w) ∧
    (run (.sum "amount") acts').result? = (run (.sum "amount") portions).result? ∧
    (run (.sum "amount") portions).result? = some (.double ⟨0x400c000000000000⟩) := by
  intro acts' added
  have hfree : (run (.sum "amount") portions).contributions[3]? = none := by decide +kernel
  have hnew := contributions_run_eq_none.1 hfree
  have hlists : (run (.sum "amount") acts').contributions.toList =
      (run (.sum "amount") portions).contributions.toList := by decide +kernel
  have hsame := stands_iff_of_toList hlists
  -- Quarters are multiples of `2^1072` in the smallest unit of doubles.
  have hun : ∀ acts : List Act, (∀ before ∈ acts.inits,
      Value.Fine 1072 (run (.sum "amount") before).contributions.values) →
      Unrounded (.sum "amount") acts := fun acts hfine =>
    ⟨1072, by decide, fun before hb => hfine before ((List.mem_inits _ _).2 hb)⟩
  have hneeds : (Fold.sum "amount").needsNumbers = true := rfl
  obtain ⟨hback, -, hresult⟩ := trace_of_run hneeds hnew (.double ⟨0x3fe8000000000000⟩)
  have hadded : Unrounded (.sum "amount") (portions ++ [added]) := hun _ (by decide +kernel)
  exact ⟨hneeds, hnew, hadded, hback (.inr (.inr hadded)), hsame,
    hresult acts' hsame (.inr ⟨hun _ (by decide +kernel), hun _ (by decide +kernel)⟩),
    by decide +kernel⟩

/-- A one beside which the double `2^53` has come and gone is lost, from a sum and from an average. -/
theorem trace_lost :
    let acts := [.add 1 (.double ⟨0x3ff0000000000000⟩)]
    let acts' := acts ++ [.add 2 (.double ⟨0x4340000000000000⟩), .remove 2]
    (∀ w, ¬ Stands acts 2 w) ∧ (∀ i w, Stands acts' i w ↔ Stands acts i w) ∧
    (run (.sum "amount") acts).result? = some (.double ⟨0x3ff0000000000000⟩) ∧
    (run (.sum "amount") acts').result? = some (.double .zero) ∧
    (run (.average "amount") acts).result? = some (.double ⟨0x3ff0000000000000⟩) ∧
    (run (.average "amount") acts').result? = some (.double .zero) := by
  intro acts acts'
  have hfree : (run (.sum "amount") acts).contributions[2]? = none := by decide +kernel
  have hlists : (run (.sum "amount") acts').contributions.toList =
      (run (.sum "amount") acts).contributions.toList := by decide +kernel
  exact ⟨contributions_run_eq_none.1 hfree, stands_iff_of_toList hlists, by decide +kernel,
    by decide +kernel, by decide +kernel, by decide +kernel⟩

end Accumulator

end RuleNet
