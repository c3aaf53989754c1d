/-
  An accumulator kept up along a history is the accumulator of what stands at its end.

  * `Accumulator.Act`, `Accumulator.run`: what is done to an accumulator, and all of it in a row.
  * `Accumulator.Stands`: a fact has added a value last, and has not been removed since.
  * `Accumulator.contributions_run`: what stands is what contributes.
  * `Fold.Gives`: what a fold gives for values, said for each fold apart from how it is computed.
  * `Accumulator.integerSum_run`: the sum of integers never needs more than 128 bits.
  * `Accumulator.rescan_of_run`: whatever was done, the result is that of an accumulator filled with
    what stands, and the one that the fold is to give.
-/
import Mathlib.Data.List.Induction
import Mathlib.Data.List.Perm.Subperm
import RuleNet.Proofs.Accumulator
import RuleNet.Proofs.Value.Equality

namespace RuleNet

namespace Accumulator

/-! ## Histories -/

/-- What is done to an accumulator. -/
inductive Act where
  | add (h : Handle) (v : Value)
  | remove (h : Handle)

/-- The fact that comes or goes. -/
def Act.handle : Act → Handle
  | .add h _ | .remove h => h

/-- An accumulator after an act. -/
def after (acc : Accumulator) : Act → Accumulator
  | .add h v => acc.add h v
  | .remove h => acc.remove h

/-- The accumulator after acts in a row. -/
def run (fold : Fold) (acts : List Act) : Accumulator := acts.foldl after (empty fold)

/-- The last act about a fact has added a value. -/
def Stands (acts : List Act) (h : Handle) (v : Value) : Prop :=
  ∃ before later, acts = before ++ .add h v :: later ∧ ∀ act ∈ later, act.handle ≠ h

variable {fold : Fold} {acts acts' : List Act} {act : Act} {h : Handle} {v : Value}

theorem run_snoc (fold : Fold) (acts : List Act) (act : Act) :
    run fold (acts ++ [act]) = (run fold acts).after act := List.foldl_concat ..

theorem not_stands_nil : ¬ Stands [] h v := by
  rintro ⟨before, later, heq, -⟩
  exact absurd heq.symm (List.append_ne_nil_of_right_ne_nil _ nofun)

theorem stands_snoc :
    Stands (acts ++ [act]) h v ↔ act = .add h v ∨ act.handle ≠ h ∧ Stands acts h v := by
  constructor
  · rintro ⟨before, later, heq, hlater⟩
    rcases List.eq_nil_or_concat later with rfl | ⟨mid, last, rfl⟩
    · obtain ⟨-, hact⟩ := List.append_inj' heq rfl
      exact .inl (List.cons.inj hact).1
    · rw [List.concat_eq_append, ← List.cons_append, ← List.append_assoc] at heq
      obtain ⟨rfl, hact⟩ := List.append_inj' heq rfl
      obtain rfl := (List.cons.inj hact).1
      rw [List.concat_eq_append, List.forall_mem_append] at hlater
      exact .inr ⟨hlater.2 _ (List.mem_singleton_self _), before, mid, rfl, hlater.1⟩
  · rintro (rfl | ⟨hact, before, later, rfl, hlater⟩)
    · exact ⟨acts, [], rfl, nofun⟩
    · refine ⟨before, later ++ [act], by rw [List.append_assoc, List.cons_append], ?_⟩
      rw [List.forall_mem_append]
      exact ⟨hlater, fun other hother => List.mem_singleton.1 hother ▸ hact⟩

/-- What stands has been added. -/
theorem Stands.mem (hs : Stands acts h v) : .add h v ∈ acts := by
  obtain ⟨before, later, rfl, -⟩ := hs
  exact List.mem_append_right _ List.mem_cons_self

theorem contributions_after (acc : Accumulator) (act : Act) (h : Handle) :
    (acc.after act).contributions[h]? = if act.handle = h then
      (match act with | .add _ v => some v | .remove _ => none) else acc.contributions[h]? := by
  cases act with
  | add i v => exact contributions_add acc i h v
  | remove i => exact contributions_remove acc i h

/-- What stands is what contributes. -/
theorem contributions_run (fold : Fold) (acts : List Act) (h : Handle) (v : Value) :
    (run fold acts).contributions[h]? = some v ↔ Stands acts h v := by
  induction acts using List.reverseRecOn with
  | nil => exact iff_of_false nofun not_stands_nil
  | append_singleton acts act ih =>
    rw [run_snoc, stands_snoc, contributions_after]
    by_cases hact : act.handle = h
    · rw [if_pos hact]
      subst hact
      cases act with
      | add i w => simp [Act.handle]
      | remove i => simp [Act.handle]
    · rw [if_neg hact, ih]
      refine ⟨fun hs => .inr ⟨hact, hs⟩, fun hs => (hs.resolve_left ?_).2⟩
      rintro rfl
      exact hact rfl

theorem contributions_run_eq_none :
    (run fold acts).contributions[h]? = none ↔ ∀ v, ¬ Stands acts h v := by
  simp only [Option.eq_none_iff_forall_ne_some, ne_eq, contributions_run]

theorem mem_toList_run :
    (h, v) ∈ (run fold acts).contributions.toList ↔ Stands acts h v :=
  mem_toList.trans (contributions_run fold acts h v)

theorem mem_values_run : v ∈ (run fold acts).contributions.values ↔ ∃ h, Stands acts h v := by
  simp only [values_eq_map_toList, List.mem_map, Prod.exists, exists_eq_right, mem_toList_run]

theorem fold_run (fold : Fold) (acts : List Act) : (run fold acts).fold = fold := by
  induction acts using List.reverseRecOn with
  | nil => rfl
  | append_singleton acts act ih =>
    rw [run_snoc]
    cases act with
    | add i w => exact (fold_add _ _ _).trans ih
    | remove i => exact (fold_remove _ _).trans ih

theorem regular_run (fold : Fold) (acts : List Act) : (run fold acts).Regular := by
  induction acts using List.reverseRecOn with
  | nil => exact regular_empty fold
  | append_singleton acts act ih =>
    rw [run_snoc]
    cases act with
    | add i w => exact ih.add i w
    | remove i => exact ih.remove i

/-- Histories with the same at their ends make the same contributions. -/
theorem contributions_eq (hsame : ∀ h v, Stands acts h v ↔ Stands acts' h v) (fold fold' : Fold) :
    (run fold acts).contributions = (run fold' acts').contributions := by
  refine Std.ExtTreeMap.ext_getElem? fun h => Option.ext fun v => ?_
  rw [contributions_run, contributions_run, hsame]

/-- Histories whose accumulators list the same have the same at their ends. -/
theorem stands_iff_of_toList (heq : (run fold acts).contributions.toList =
    (run fold acts').contributions.toList) (h : Handle) (v : Value) :
    Stands acts h v ↔ Stands acts' h v := by
  have hmem : (h, v) ∈ (run fold acts).contributions.toList ↔ _ := mem_toList_run
  rw [heq, mem_toList_run] at hmem
  exact hmem.symm

/-- An accumulator filled with values is one after additions. -/
theorem ofList_eq_run (fold : Fold) (pairs : List (Handle × Value)) :
    ofList fold pairs = run fold (pairs.map fun a => .add a.1 a.2) := by
  rw [ofList, run, List.foldl_map]
  rfl

/-- Of additions for different facts, all stand. -/
theorem stands_adds {pairs : List (Handle × Value)}
    (hpairs : pairs.Pairwise fun a b => a.1 ≠ b.1) :
    Stands (pairs.map fun a => .add a.1 a.2) h v ↔ (h, v) ∈ pairs := by
  constructor
  · intro hs
    obtain ⟨⟨i, w⟩, hmem, heq⟩ := List.mem_map.1 hs.mem
    cases heq
    exact hmem
  · intro hmem
    obtain ⟨before, later, rfl⟩ := List.append_of_mem hmem
    refine ⟨before.map fun a => .add a.1 a.2, later.map fun a => .add a.1 a.2, by simp, ?_⟩
    rintro act hact
    obtain ⟨a, ha, rfl⟩ := List.mem_map.1 hact
    exact ((List.pairwise_cons.1 (List.pairwise_append.1 hpairs).2.1).1 a ha).symm

end Accumulator

/-! ## Folds -/

/-- What comes first among the values other than null, in an order; nothing does if all are null. -/
def Value.IsFirst (order : Value → Value → Ordering) (values : List Value) : Option Value → Prop
  | none => ∀ v ∈ values, v.isNull = true
  | some v => v ∈ values ∧ v.isNull = false ∧ ∀ w ∈ values, w.isNull = false → order v w ≠ .gt

/-- What a fold is to give for values, where sums and averages are of integers. -/
def Fold.Gives (fold : Fold) (values : List Value) (result : Option Value) : Prop := match fold with
  | .count => ∃ n, result = some (.integer n) ∧ n.toInt = min ↑values.length Integer64.greatest
  | .sum _ => ∃ n, result = some (.integer n) ∧ n.toInt = Integer64.clamp (Value.integerSum values)
  | .average _ =>
    (∀ i, .integer i ∉ values) ∧ result = none ∨
    (∃ i, .integer i ∈ values) ∧ result = some (.double
      ((Binary64.ofInt (Value.integerSum values)).div (.ofNat (values.countP Value.isNumber))))
  | .least _ => Value.IsFirst Value.totalCompare values result
  | .greatest _ => Value.IsFirst (fun v w => w.totalCompare v) values result
  | .distinct _ => ∃ items, result = some (.array items) ∧
    items.Pairwise (fun v w => v.totalCompare w = .lt) ∧
    ∀ v, v ∈ items ↔ v ∈ values ∧ v.isNull = false
  | .list _ => result = some (.array (values.filter fun v => !v.isNull))

namespace Value

theorem toInt_nearest (i : Int) : (Integer64.nearest i).toInt = Integer64.clamp i :=
  toInt_ofInt (Integer64.holds_clamp i)

/-- The head of an ascending list is what comes first. -/
theorem isFirst_head (order : Value → Value → Ordering) (hself : ∀ v, order v v = .eq)
    {items values : List Value} (hpairs : items.Pairwise fun v w => order v w = .lt)
    (hmem : ∀ v, v ∈ items ↔ v ∈ values ∧ v.isNull = false) :
    IsFirst order values items.head? := by
  cases items with
  | nil =>
    intro v hv
    cases hnull : v.isNull with
    | true => rfl
    | false => exact absurd ((hmem v).2 ⟨hv, hnull⟩) List.not_mem_nil
  | cons v rest =>
    obtain ⟨hv, hnull⟩ := (hmem v).1 List.mem_cons_self
    refine ⟨hv, hnull, fun w hw hwnull => ?_⟩
    rcases List.mem_cons.1 ((hmem w).2 ⟨hw, hwnull⟩) with rfl | hrest
    · rw [hself]
      decide
    · rw [(List.pairwise_cons.1 hpairs).1 w hrest]
      decide

theorem isFirst_ascending_head (values : List Value) :
    IsFirst totalCompare values (ascending values).head? :=
  isFirst_head _ totalCompare_self (pairwise_ascending values) fun _ => mem_ascending

theorem isFirst_ascending_last (values : List Value) :
    IsFirst (fun v w => w.totalCompare v) values (ascending values).getLast? := by
  rw [List.getLast?_eq_head?_reverse]
  refine isFirst_head (fun v w => w.totalCompare v) totalCompare_self ?_
    fun _ => List.mem_reverse.trans mem_ascending
  exact List.pairwise_reverse.2 (pairwise_ascending values)

/-- Where there is no double, the numbers are the integers. -/
theorem countP_isNumber_eq_zero {values : List Value} (hd : ∀ v ∈ values, v.isDouble = false) :
    values.countP isNumber = 0 ↔ ∀ i, .integer i ∉ values := by
  rw [List.countP_eq_zero]
  constructor
  · exact fun h i hi => h _ hi rfl
  · intro h v hv
    cases v with
    | integer i => exact absurd hv (h i)
    | double x => cases hd _ hv
    | _ => nofun

end Value

/-- The fold of values at once gives what it is to give. -/
theorem Fold.gives_over {fold : Fold} {values : List Value}
    (hd : fold.needsNumbers = true → ∀ v ∈ values, v.isDouble = false) :
    fold.Gives values (fold.over values) := by
  cases fold with
  | count =>
    refine ⟨_, rfl, (Value.toInt_nearest _).trans ?_⟩
    simp only [Integer64.clamp, Integer64.least, Integer64.greatest]
    omega
  | sum f => exact ⟨_, rfl, Value.toInt_nearest _⟩
  | average f =>
    have hnone := Value.countP_isNumber_eq_zero (hd rfl)
    by_cases hn : values.countP Value.isNumber = 0
    · exact .inl ⟨hnone.1 hn, if_pos hn⟩
    · refine .inr ⟨?_, if_neg hn⟩
      apply Classical.byContradiction
      exact fun h => hn (hnone.2 fun i hi => h ⟨i, hi⟩)
  | least f => exact Value.isFirst_ascending_head values
  | greatest f => exact Value.isFirst_ascending_last values
  | distinct f =>
    exact ⟨_, rfl, Value.pairwise_ascending values, fun _ => Value.mem_ascending⟩
  | list f => rfl

/-! ## The sum of integers -/

namespace Value

theorem addend_bounds (v : Value) : Integer64.least ≤ v.addend ∧ v.addend ≤ Integer64.greatest := by
  cases v with
  | integer i => exact Integer64.holds_iff.1 (holds_toInt i)
  | _ => exact (show Integer64.least ≤ 0 ∧ 0 ≤ Integer64.greatest by decide)

theorem integerSum_bounds (values : List Value) :
    values.length * Integer64.least ≤ integerSum values ∧
      integerSum values ≤ values.length * Integer64.greatest := by
  induction values with
  | nil => exact ⟨Int.le_of_eq (Int.zero_mul _), Int.le_of_eq (Int.zero_mul _).symm⟩
  | cons v rest ih =>
    have hv := v.addend_bounds
    rw [integerSum, List.length_cons, Int.natCast_succ, Int.add_mul, Int.add_mul]
    omega

end Value

namespace Accumulator

variable {fold : Fold} {acts : List Act} {h : Handle}

theorem contains_run : (run fold acts).contains h = true ↔ ∃ v, Stands acts h v := by
  rw [contains_iff]
  exact exists_congr fun v => contributions_run fold acts h v

/-- Facts with handles of 64 bits are not more than there are such handles. -/
theorem size_run_le (fold : Fold) (hacts : ∀ act ∈ acts, act.handle < twoTo 64) :
    (run fold acts).size ≤ twoTo 64 := by
  have hnodup : (run fold acts).contributors.Nodup :=
    Std.ExtTreeMap.ordered_keys.imp fun {a b} hlt heq => by simp [heq] at hlt
  have hsub : (run fold acts).contributors ⊆ List.range (twoTo 64) := fun h hh => by
    obtain ⟨v, hs⟩ := contains_run.1 (mem_contributors.1 hh)
    exact List.mem_range.2 (hacts _ hs.mem)
  have hle := (List.subperm_of_subset hnodup hsub).length_le
  rwa [List.length_range, contributors, Std.ExtTreeMap.length_keys] at hle

/-- Where nothing is summed, the sum stays as it is. -/
theorem integerSum_enter {acc : Accumulator} (hf : acc.fold.needsNumbers = false) (v : Value) :
    (acc.enter v).integerSum = acc.integerSum := by
  cases hfold : acc.fold with
  | sum f | average f =>
    rw [hfold] at hf
    cases hf
  | count | list f => simp only [enter, hfold]
  | least f | greatest f | distinct f =>
    simp only [enter, hfold]
    split <;> rfl

theorem integerSum_leave {acc : Accumulator} (hf : acc.fold.needsNumbers = false) (v : Value) :
    (acc.leave v).integerSum = acc.integerSum := by
  cases hfold : acc.fold with
  | sum f | average f =>
    rw [hfold] at hf
    cases hf
  | count | list f => simp only [leave, hfold]
  | least f | greatest f | distinct f =>
    simp only [leave, hfold]
    split <;> rfl

theorem integerSum_remove {acc : Accumulator} (hf : acc.fold.needsNumbers = false) (h : Handle) :
    (acc.remove h).integerSum = acc.integerSum := by
  unfold remove
  split
  · exact integerSum_leave hf _
  · rfl

theorem integerSum_idle (hf : fold.needsNumbers = false) (acts : List Act) :
    (run fold acts).integerSum = 0 := by
  induction acts using List.reverseRecOn with
  | nil => rfl
  | append_singleton acts act ih =>
    have hfold : (run fold acts).fold.needsNumbers = false := by rwa [fold_run]
    rw [run_snoc]
    cases act with
    | add i w =>
      have hrest : ((run fold acts).remove i).fold.needsNumbers = false := by rwa [fold_remove]
      exact (integerSum_enter hrest w).trans ((integerSum_remove hfold i).trans ih)
    | remove i => exact (integerSum_remove hfold i).trans ih

/-- With handles of 64 bits, the sum of integers has 128 bits at all times: it is that of at most
    `2^64` integers of 64 bits. -/
theorem integerSum_run (fold : Fold) (hacts : ∀ act ∈ acts, act.handle < twoTo 64) :
    -(twoTo 127 : Int) ≤ (run fold acts).integerSum ∧ (run fold acts).integerSum < twoTo 127 := by
  have h127 : (twoTo 127 : Int) = 170141183460469231731687303715884105728 := by decide
  cases hf : fold.needsNumbers with
  | false =>
    rw [integerSum_idle hf, h127]
    decide
  | true =>
    have hsums := (regular_run fold acts).sums (by rwa [fold_run])
    have hlength : (run fold acts).contributions.values.length ≤ twoTo 64 := by
      rw [values_eq_map_toList, List.length_map, Std.ExtTreeMap.length_toList]
      exact size_run_le fold hacts
    have h64 : twoTo 64 = 18446744073709551616 := by decide
    have hbounds := Value.integerSum_bounds (run fold acts).contributions.values
    rw [hsums.integers, h127]
    simp only [Integer64.least, Integer64.greatest] at hbounds
    omega

/-! ## The law -/

/-- The facts that contribute, with what they contribute. -/
theorem pairwise_contributions (acc : Accumulator) :
    acc.contributions.toList.Pairwise fun a b => a.1 < b.1 :=
  acc.contributions.ordered_keys_toList.imp fun hlt => Nat.compare_eq_lt.1 hlt

/-- Histories with the same at their ends give the same result, where no double is summed. -/
theorem result?_congr {acts' : List Act} (hsame : ∀ h v, Stands acts h v ↔ Stands acts' h v)
    (hd : fold.needsNumbers = true → ∀ h v, Stands acts h v → v.isDouble = false) :
    (run fold acts).result? = (run fold acts').result? ∧
      (run fold acts).result? = fold.over (run fold acts).contributions.values := by
  have hvalues : fold.needsNumbers = true →
      ∀ v ∈ (run fold acts).contributions.values, v.isDouble = false := by
    intro hf v hv
    obtain ⟨h, hs⟩ := mem_values_run.1 hv
    exact hd hf h v hs
  have heq := contributions_eq hsame fold fold
  have hresult := (regular_run fold acts).result?_eq (by rwa [fold_run])
  have hresult' := (regular_run fold acts').result?_eq (by rwa [fold_run, ← heq])
  rw [fold_run] at hresult hresult'
  exact ⟨by rw [hresult, hresult', heq], hresult⟩

/-- Whatever was added and removed, an accumulator describes what stands: the facts whose last act
    has added a value, in order of their handles, each with that value. Its result is that of an
    accumulator filled with these pairs at once, and it is what the fold is to give; sums and
    averages are of integers here. The sum of integers has 128 bits at all times. -/
theorem rescan_of_run (fold : Fold) (acts : List Act) :
    ∃ pairs : List (Handle × Value), pairs.Pairwise (fun a b => a.1 < b.1) ∧
      (∀ h v, (h, v) ∈ pairs ↔ Stands acts h v) ∧
      (run fold acts).contributors = pairs.map Prod.fst ∧
      (run fold acts).size = pairs.length ∧
      ((fold.needsNumbers = true → ∀ a ∈ pairs, a.2.isDouble = false) →
        (run fold acts).result? = (ofList fold pairs).result? ∧
        fold.Gives (pairs.map Prod.snd) (run fold acts).result?) ∧
      ((∀ act ∈ acts, act.handle < twoTo 64) →
        -(twoTo 127 : Int) ≤ (run fold acts).integerSum ∧
        (run fold acts).integerSum < twoTo 127) := by
  have hpairs := pairwise_contributions (run fold acts)
  refine ⟨(run fold acts).contributions.toList, hpairs, fun _ _ => mem_toList_run,
    Std.ExtTreeMap.map_fst_toList_eq_keys.symm, Std.ExtTreeMap.length_toList.symm, fun hd => ?_,
    integerSum_run fold⟩
  have hsame : ∀ h v, Stands acts h v ↔
      Stands ((run fold acts).contributions.toList.map fun a => .add a.1 a.2) h v := fun h v => by
    rw [stands_adds (hpairs.imp Nat.ne_of_lt), mem_toList_run]
  obtain ⟨hrescan, hover⟩ := result?_congr hsame fun hf h v hs => hd hf _ (mem_toList_run.2 hs)
  refine ⟨by rw [ofList_eq_run, hrescan], ?_⟩
  rw [hover, values_eq_map_toList]
  refine Fold.gives_over fun hf v hv => ?_
  obtain ⟨a, ha, rfl⟩ := List.mem_map.1 hv
  exact hd hf a ha

/-- Amounts that come, change and go: two stand at the end, which together are out of range. -/
def amounts : List Act :=
  [.add 3 (.integer 7), .add 1 (.integer 5), .add 3 (.integer 9223372036854775807), .add 2 .null,
    .remove 1, .add 2 (.integer 1), .remove 4]

theorem rescan_of_run_amounts :
    (∀ act ∈ amounts, act.handle < twoTo 64) ∧
    ∃ pairs : List (Handle × Value), (∀ h v, (h, v) ∈ pairs ↔ Stands amounts h v) ∧
      (∀ a ∈ pairs, a.2.isDouble = false) ∧
      (run (.sum "amount") amounts).result? = (ofList (.sum "amount") pairs).result? ∧
      (Fold.sum "amount").Gives (pairs.map Prod.snd) (run (.sum "amount") amounts).result? ∧
      (run (.sum "amount") amounts).result? = some (.integer 9223372036854775807) ∧
      (run (.sum "amount") amounts).integerSum < twoTo 127 := by
  have hhandles : ∀ act ∈ amounts, act.handle < twoTo 64 := by decide
  have hadds : ∀ h v, .add h v ∈ amounts → v.isDouble = false := by
    intro h v hmem
    simp only [amounts, List.mem_cons, List.not_mem_nil, Act.add.injEq, reduceCtorEq, or_false,
      false_or] at hmem
    rcases hmem with ⟨-, rfl⟩ | ⟨-, rfl⟩ | ⟨-, rfl⟩ | ⟨-, rfl⟩ | ⟨-, rfl⟩ <;> rfl
  obtain ⟨pairs, -, hmem, -, -, hresult, hsum⟩ := rescan_of_run (.sum "amount") amounts
  have hd : ∀ a ∈ pairs, a.2.isDouble = false := fun a ha =>
    hadds a.1 a.2 ((hmem a.1 a.2).1 ha).mem
  obtain ⟨hrescan, hgives⟩ := hresult fun _ => hd
  exact ⟨hhandles, pairs, hmem, hd, hrescan, hgives, by decide +kernel, (hsum hhandles).2⟩

end Accumulator

end RuleNet
