/-
  An accumulator holds what its contributions make up, in whatever order they came and went.

  * `Bag.Ordered`, `Bag.count`: a bag in its one form, and how often a value is in it.
  * `Accumulator.Regular`: sums and bag are those of the contributions; every addition and removal
    keeps this.
  * `Fold.over`: a list of values folded at once.
  * `Accumulator.Regular.result?_eq`: the result of a regular accumulator, none of whose summands is
    a double, is its contributions folded at once.
-/
import RuleNet.Accumulator
import RuleNet.Proofs.Value.Order

namespace RuleNet

/-! ## Listings -/

theorem values_eq_map_toList {α β : Type} {cmp : α → α → Ordering} [Std.TransCmp cmp]
    (map : Std.ExtTreeMap α β cmp) : map.values = map.toList.map Prod.snd := by
  have hfold : map.values = map.foldr (fun _ v rest => v :: rest) [] := by
    obtain ⟨⟨map⟩⟩ := map
    rfl
  rw [hfold, Std.ExtTreeMap.foldr_eq_foldr_toList]
  induction map.toList with
  | nil => rfl
  | cons e rest ih => rw [List.foldr_cons, ih, List.map_cons]

/-- An ascending list is known by its members. -/
theorem eq_of_ascending {α : Type} {r : α → α → Prop} (asymm : ∀ a b, r a b → ¬ r b a)
    {l l' : List α} (h : l.Pairwise r) (h' : l'.Pairwise r) (hmem : ∀ a, a ∈ l ↔ a ∈ l') :
    l = l' := by
  have hne : ∀ {a b : α}, r a b → a ≠ b := fun hab e => asymm _ _ hab (e ▸ hab)
  have hperm : l.Perm l' := (List.perm_ext_iff_of_nodup (h.imp hne) (h'.imp hne)).2 hmem
  exact hperm.eq_of_pairwise (fun a b _ _ hab hba => absurd hba (asymm a b hab)) h h'

/-! ## Bags -/

namespace Bag

/-- Every value stands once, in ascending order, and is there at all. -/
def Ordered (bag : Bag) : Prop :=
  bag.Pairwise (fun a b => a.1.totalCompare b.1 = .lt) ∧ ∀ e ∈ bag, 0 < e.2

/-- How often a value is in a bag. -/
def count (v : Value) : Bag → Nat
  | [] => 0
  | (w, n) :: rest => if w = v then n else count v rest

theorem ordered_cons {e : Value × Nat} {rest : Bag} : Ordered (e :: rest) ↔
    (∀ b ∈ rest, e.1.totalCompare b.1 = .lt) ∧ 0 < e.2 ∧ Ordered rest := by
  simp only [Ordered, List.pairwise_cons, List.forall_mem_cons]
  exact ⟨fun ⟨⟨h, hp⟩, hn, hr⟩ => ⟨h, hn, hp, hr⟩, fun ⟨h, hn, hp, hr⟩ => ⟨⟨h, hp⟩, hn, hr⟩⟩

theorem count_eq_zero {v : Value} {bag : Bag} (h : ∀ e ∈ bag, e.1 ≠ v) : count v bag = 0 := by
  induction bag with
  | nil => rfl
  | cons e rest ih =>
    rw [count, if_neg (h e List.mem_cons_self)]
    exact ih fun b hb => h b (List.mem_cons_of_mem _ hb)

/-- A value before all others is not there. -/
theorem count_of_lt {v : Value} {bag : Bag} (h : ∀ e ∈ bag, v.totalCompare e.1 = .lt) :
    count v bag = 0 := by
  refine count_eq_zero fun e he heq => ?_
  have hlt := h e he
  rw [heq, Value.totalCompare_self] at hlt
  cases hlt

theorem mem_values_iff {v : Value} {bag : Bag} (h : bag.Ordered) :
    v ∈ bag.values ↔ 0 < count v bag := by
  induction bag with
  | nil => simp [values, count]
  | cons e rest ih =>
    obtain ⟨-, hn, hr⟩ := ordered_cons.1 h
    rw [values, List.map_cons, List.mem_cons, ← values, count, ih hr]
    by_cases hv : e.1 = v
    · rw [if_pos hv]
      exact ⟨fun _ => hn, fun _ => Or.inl hv.symm⟩
    · rw [if_neg hv]
      exact ⟨fun h => h.resolve_left fun e => hv e.symm, Or.inr⟩

theorem mem_add {v : Value} {e : Value × Nat} {bag : Bag} (h : e ∈ add v bag) :
    e.1 = v ∨ ∃ b ∈ bag, b.1 = e.1 := by
  induction bag with
  | nil =>
    rw [add, List.mem_singleton] at h
    exact Or.inl (h ▸ rfl)
  | cons b rest ih =>
    rw [add] at h
    split at h
    · rcases List.mem_cons.1 h with rfl | h
      · exact Or.inl rfl
      · exact Or.inr ⟨e, h, rfl⟩
    · rcases List.mem_cons.1 h with rfl | h
      · exact Or.inr ⟨b, List.mem_cons_self, rfl⟩
      · exact Or.inr ⟨e, List.mem_cons_of_mem _ h, rfl⟩
    · rcases List.mem_cons.1 h with rfl | h
      · exact Or.inr ⟨b, List.mem_cons_self, rfl⟩
      · rcases ih h with h | ⟨c, hc, hce⟩
        · exact Or.inl h
        · exact Or.inr ⟨c, List.mem_cons_of_mem _ hc, hce⟩

theorem ordered_add (v : Value) {bag : Bag} (h : bag.Ordered) : (add v bag).Ordered := by
  induction bag with
  | nil => exact ordered_cons.2 ⟨fun b hb => absurd hb List.not_mem_nil, Nat.one_pos, h⟩
  | cons b rest ih =>
    obtain ⟨hb, hn, hr⟩ := ordered_cons.1 h
    rw [add]
    split
    · next hlt =>
      refine ordered_cons.2 ⟨fun c hc => ?_, Nat.one_pos, h⟩
      rcases List.mem_cons.1 hc with rfl | hc
      · exact hlt
      · exact Std.TransCmp.lt_trans hlt (hb c hc)
    · exact ordered_cons.2 ⟨hb, Nat.succ_pos _, hr⟩
    · next hgt =>
      refine ordered_cons.2 ⟨fun c hc => ?_, hn, ih hr⟩
      rcases mem_add hc with he | ⟨d, hd, he⟩
      · rw [he]
        exact Value.gt_iff_lt.1 hgt
      · rw [← he]
        exact hb d hd

theorem count_add (v w : Value) {bag : Bag} (h : bag.Ordered) :
    count w (add v bag) = count w bag + if v = w then 1 else 0 := by
  induction bag with
  | nil => rw [add, count, count]; exact (Nat.zero_add _).symm
  | cons b rest ih =>
    obtain ⟨hb, hn, hr⟩ := ordered_cons.1 h
    rw [add]
    split
    · next hlt =>
      rw [count]
      by_cases hvw : v = w
      · subst hvw
        have hzero : count v (b :: rest) = 0 := by
          refine count_of_lt fun c hc => ?_
          rcases List.mem_cons.1 hc with rfl | hc
          · exact hlt
          · exact Std.TransCmp.lt_trans hlt (hb c hc)
        rw [if_pos rfl, if_pos rfl, hzero]
      · rw [if_neg hvw, if_neg hvw, Nat.add_zero]
    · next heq =>
      obtain rfl := Std.LawfulEqCmp.eq_of_compare heq
      rw [count, count]
      by_cases hvw : b.1 = w
      · rw [if_pos hvw, if_pos hvw, if_pos hvw]
      · rw [if_neg hvw, if_neg hvw, if_neg hvw, Nat.add_zero]
    · next hgt =>
      rw [count, count, ih hr]
      by_cases hbw : b.1 = w
      · have hvw : v ≠ w := by
          rintro rfl
          rw [hbw, Value.totalCompare_self] at hgt
          cases hgt
        rw [if_pos hbw, if_pos hbw, if_neg hvw, Nat.add_zero]
      · rw [if_neg hbw, if_neg hbw]

theorem mem_remove {v : Value} {e : Value × Nat} {bag : Bag} (h : e ∈ remove v bag) :
    ∃ b ∈ bag, b.1 = e.1 := by
  induction bag with
  | nil => cases h
  | cons b rest ih =>
    rw [remove] at h
    split at h
    · exact ⟨e, h, rfl⟩
    · split at h
      · exact ⟨e, List.mem_cons_of_mem _ h, rfl⟩
      · rcases List.mem_cons.1 h with rfl | h
        · exact ⟨b, List.mem_cons_self, rfl⟩
        · exact ⟨e, List.mem_cons_of_mem _ h, rfl⟩
    · rcases List.mem_cons.1 h with rfl | h
      · exact ⟨b, List.mem_cons_self, rfl⟩
      · obtain ⟨c, hc, hce⟩ := ih h
        exact ⟨c, List.mem_cons_of_mem _ hc, hce⟩

theorem ordered_remove (v : Value) {bag : Bag} (h : bag.Ordered) : (remove v bag).Ordered := by
  induction bag with
  | nil => exact h
  | cons b rest ih =>
    obtain ⟨hb, hn, hr⟩ := ordered_cons.1 h
    rw [remove]
    split
    · exact h
    · split
      · exact hr
      · next hmany => exact ordered_cons.2 ⟨hb, by omega, hr⟩
    · refine ordered_cons.2 ⟨fun c hc => ?_, hn, ih hr⟩
      obtain ⟨d, hd, he⟩ := mem_remove hc
      rw [← he]
      exact hb d hd

theorem count_remove (v w : Value) {bag : Bag} (h : bag.Ordered) :
    count w (remove v bag) = count w bag - if v = w then 1 else 0 := by
  induction bag with
  | nil => rw [remove, count, Nat.zero_sub]
  | cons b rest ih =>
    obtain ⟨hb, hn, hr⟩ := ordered_cons.1 h
    rw [remove]
    split
    · next hlt =>
      by_cases hvw : v = w
      · subst hvw
        have hzero : count v (b :: rest) = 0 := by
          refine count_of_lt fun c hc => ?_
          rcases List.mem_cons.1 hc with rfl | hc
          · exact hlt
          · exact Std.TransCmp.lt_trans hlt (hb c hc)
        rw [show (b.1, b.2) :: rest = b :: rest from rfl, hzero, Nat.zero_sub]
      · rw [if_neg hvw, Nat.sub_zero]
    · next heq =>
      obtain rfl := Std.LawfulEqCmp.eq_of_compare heq
      split
      · next hone =>
        rw [count]
        by_cases hvw : b.1 = w
        · subst hvw
          rw [if_pos rfl, if_pos rfl, count_of_lt hb]
          omega
        · rw [if_neg hvw, if_neg hvw, Nat.sub_zero]
      · rw [count, count]
        by_cases hvw : b.1 = w
        · rw [if_pos hvw, if_pos hvw, if_pos hvw]
        · rw [if_neg hvw, if_neg hvw, if_neg hvw, Nat.sub_zero]
    · next hgt =>
      rw [count, count, ih hr]
      by_cases hbw : b.1 = w
      · have hvw : v ≠ w := by
          rintro rfl
          rw [hbw, Value.totalCompare_self] at hgt
          cases hgt
        rw [if_pos hbw, if_pos hbw, if_neg hvw, Nat.sub_zero]
      · rw [if_neg hbw, if_neg hbw]

end Bag

/-! ## Listings of maps -/

section
variable {β : Type} {map : Std.ExtTreeMap Nat β} {h : Nat} {v : β}

theorem nodup_toList (map : Std.ExtTreeMap Nat β) : map.toList.Nodup :=
  Std.ExtTreeMap.distinct_keys_toList.imp fun {_ _} hne e =>
    hne (Nat.compare_eq_eq.2 (congrArg Prod.fst e))

theorem mem_toList {e : Nat × β} : e ∈ map.toList ↔ map[e.1]? = some e.2 :=
  Std.ExtTreeMap.mem_toList_iff_getElem?_eq_some

theorem values_insert_perm (hnew : map[h]? = none) :
    (map.insert h v).values.Perm (v :: map.values) := by
  rw [values_eq_map_toList, values_eq_map_toList]
  suffices hperm : (map.insert h v).toList.Perm ((h, v) :: map.toList) from hperm.map Prod.snd
  have hnot : (h, v) ∉ map.toList := by
    intro hmem
    rw [mem_toList, hnew] at hmem
    cases hmem
  refine (List.perm_ext_iff_of_nodup (nodup_toList _) (List.nodup_cons.2 ⟨hnot, nodup_toList _⟩)).2 ?_
  rintro ⟨i, w⟩
  rw [mem_toList, List.mem_cons, mem_toList, Std.ExtTreeMap.getElem?_insert]
  simp only [Nat.compare_eq_eq, Prod.mk.injEq]
  by_cases hi : h = i
  · subst hi
    simp [hnew, eq_comm]
  · simp [hi, Ne.symm hi]

theorem values_erase_perm (hold : map[h]? = some v) :
    map.values.Perm (v :: (map.erase h).values) := by
  have hback : (map.erase h).insert h v = map := by
    refine Std.ExtTreeMap.ext_getElem? fun i => ?_
    rw [Std.ExtTreeMap.getElem?_insert, Std.ExtTreeMap.getElem?_erase]
    simp only [Nat.compare_eq_eq]
    by_cases hi : h = i
    · subst hi
      simp [hold]
    · simp [hi]
  have hnew : (map.erase h)[h]? = none := by simp
  have hperm := values_insert_perm (v := v) hnew
  rwa [hback] at hperm

end

/-! ## Folds at once -/

namespace Value

/-- What a value adds to a sum of integers. -/
def addend : Value → Int
  | integer i => i.toInt
  | _ => 0

/-- The sum of the integers among values. -/
def integerSum : List Value → Int
  | [] => 0
  | v :: rest => v.addend + integerSum rest

def isDouble : Value → Bool
  | double _ => true
  | _ => false

def isNumber (v : Value) : Bool := v.asDouble?.isSome

/-- Put a value into its place in an ascending list, unless it is there. -/
def place (v : Value) : List Value → List Value
  | [] => [v]
  | w :: rest => match v.totalCompare w with
    | .lt => v :: w :: rest
    | .eq => w :: rest
    | .gt => w :: place v rest

/-- The values other than null, in ascending order without repetitions. -/
def ascending (values : List Value) : List Value :=
  (values.filter fun v => !v.isNull).foldr place []

theorem mem_place {v w : Value} {values : List Value} : w ∈ place v values ↔ w = v ∨ w ∈ values := by
  induction values with
  | nil => simp [place]
  | cons u rest ih =>
    rw [place]
    split
    · exact List.mem_cons
    · next heq =>
      obtain rfl := Std.LawfulEqCmp.eq_of_compare heq
      simp
    · rw [List.mem_cons, ih, List.mem_cons, or_left_comm]

theorem pairwise_place (v : Value) {values : List Value}
    (h : values.Pairwise fun a b => a.totalCompare b = .lt) :
    (place v values).Pairwise fun a b => a.totalCompare b = .lt := by
  induction values with
  | nil => exact List.pairwise_singleton _ v
  | cons u rest ih =>
    obtain ⟨hu, hr⟩ := List.pairwise_cons.1 h
    rw [place]
    split
    · next hlt =>
      refine List.pairwise_cons.2 ⟨fun w hw => ?_, h⟩
      rcases List.mem_cons.1 hw with rfl | hw
      · exact hlt
      · exact Std.TransCmp.lt_trans hlt (hu w hw)
    · exact h
    · next hgt =>
      refine List.pairwise_cons.2 ⟨fun w hw => ?_, ih hr⟩
      rcases mem_place.1 hw with rfl | hw
      · exact gt_iff_lt.1 hgt
      · exact hu w hw

theorem pairwise_ascending (values : List Value) :
    (ascending values).Pairwise fun a b => a.totalCompare b = .lt := by
  unfold ascending
  induction values.filter fun v => !v.isNull with
  | nil => exact List.Pairwise.nil
  | cons v rest ih => exact pairwise_place v ih

theorem mem_ascending {v : Value} {values : List Value} :
    v ∈ ascending values ↔ v ∈ values ∧ v.isNull = false := by
  have hfold : ∀ vs : List Value, v ∈ vs.foldr place [] ↔ v ∈ vs := by
    intro vs
    induction vs with
    | nil => rfl
    | cons w rest ih => rw [List.foldr_cons, mem_place, ih, List.mem_cons]
  rw [ascending, hfold, List.mem_filter, Bool.not_eq_true']

end Value

/-- The values of all facts folded at once, where sums and averages are of integers. -/
def Fold.over (fold : Fold) (values : List Value) : Option Value := match fold with
  | .count => some (.integer (Integer64.nearest values.length))
  | .sum _ => some (.integer (Integer64.nearest (Value.integerSum values)))
  | .average _ =>
    let numbers := values.countP Value.isNumber
    if numbers = 0 then none
    else some (.double ((Binary64.ofInt (Value.integerSum values)).div (.ofNat numbers)))
  | .least _ => (Value.ascending values).head?
  | .greatest _ => (Value.ascending values).getLast?
  | .distinct _ => some (.array (Value.ascending values))
  | .list _ => some (.array (values.filter fun v => !v.isNull))

/-! ## Sums -/

/-- Whether a fold keeps its values in order. -/
def Fold.ordersValues : Fold → Bool
  | .least _ | .greatest _ | .distinct _ => true
  | _ => false

namespace Accumulator

theorem sum_perm {vs ws : List Value} (h : vs.Perm ws) :
    Value.integerSum vs = Value.integerSum ws := by
  induction h with
  | nil => rfl
  | cons v _ ih => rw [Value.integerSum, Value.integerSum, ih]
  | swap v w rest => simp only [Value.integerSum]; omega
  | trans _ _ ih ih' => exact ih.trans ih'

/-- The sums and numbers kept are those of values. -/
structure Sums (acc : Accumulator) (values : List Value) : Prop where
  integers : acc.integerSum = Value.integerSum values
  numbers : acc.numberCount = values.countP Value.isNumber
  doubles : acc.doubleCount = values.countP Value.isDouble
  fresh : acc.doubleCount = 0 → acc.doubleSum = .zero

theorem Sums.perm {acc : Accumulator} {vs ws : List Value} (h : acc.Sums vs) (hp : vs.Perm ws) :
    acc.Sums ws :=
  ⟨sum_perm hp ▸ h.integers, hp.countP_eq _ ▸ h.numbers, hp.countP_eq _ ▸ h.doubles, h.fresh⟩

theorem Sums.enter {acc : Accumulator} {vs : List Value} (hf : acc.fold.needsNumbers = true)
    (h : acc.Sums vs) (v : Value) : (acc.enter v).Sums (v :: vs) := by
  obtain ⟨h1, h2, h3, h4⟩ := h
  obtain ⟨fold, contributions, integers, doubles, doubleCount, numberCount, ordered⟩ := acc
  cases fold <;> cases hf
  all_goals
    simp only at h1 h2 h3 h4
    cases v with
    | integer i =>
      constructor
      · simp only [Accumulator.enter, Value.integerSum, Value.addend]
        omega
      · simp [Accumulator.enter, List.countP_cons, Value.isNumber, Value.asDouble?, h2]
      · simp [Accumulator.enter, Value.isDouble, h3]
      · exact h4
    | double x =>
      constructor
      · simpa [Accumulator.enter, Value.integerSum, Value.addend] using h1
      · simp [Accumulator.enter, List.countP_cons, Value.isNumber, Value.asDouble?, h2]
      · simp [Accumulator.enter, List.countP_cons, Value.isDouble, h3]
      · exact fun h => absurd h (Nat.succ_ne_zero _)
    | _ =>
      constructor
      · simpa [Accumulator.enter, Value.integerSum, Value.addend] using h1
      · simp [Accumulator.enter, Value.isNumber, Value.asDouble?, h2]
      · simp [Accumulator.enter, Value.isDouble, h3]
      · exact h4

theorem Sums.leave {acc : Accumulator} {vs : List Value} (hf : acc.fold.needsNumbers = true)
    {v : Value} (h : acc.Sums (v :: vs)) : (acc.leave v).Sums vs := by
  obtain ⟨h1, h2, h3, h4⟩ := h
  obtain ⟨fold, contributions, integers, doubles, doubleCount, numberCount, ordered⟩ := acc
  rw [Value.integerSum] at h1
  rw [List.countP_cons] at h2 h3
  cases fold <;> cases hf
  all_goals
    simp only at h1 h2 h3 h4
    cases v with
    | integer i =>
      constructor
      · simp only [Accumulator.leave, Value.addend] at h1 ⊢
        omega
      · simp [Accumulator.leave, h2, Value.isNumber, Value.asDouble?]
      · simp [Accumulator.leave, h3, Value.isDouble]
      · exact h4
    | double x =>
      constructor
      · simpa [Accumulator.leave, Value.addend] using h1
      · simp [Accumulator.leave, h2, Value.isNumber, Value.asDouble?]
      · simp [Accumulator.leave, h3, Value.isDouble]
      · exact fun h => if_pos h
    | _ =>
      constructor
      · simpa [Accumulator.leave, Value.addend] using h1
      · simp [Accumulator.leave, h2, Value.isNumber, Value.asDouble?]
      · simp [Accumulator.leave, h3, Value.isDouble]
      · exact h4

/-! ## Bags of values -/

/-- The bag kept is that of values other than null. -/
structure Bags (acc : Accumulator) (values : List Value) : Prop where
  ordered : acc.ordered.Ordered
  count : ∀ v, acc.ordered.count v =
    if v.isNull then 0 else values.countP fun w => decide (w = v)

theorem Bags.perm {acc : Accumulator} {vs ws : List Value} (h : acc.Bags vs) (hp : vs.Perm ws) :
    acc.Bags ws :=
  ⟨h.ordered, fun v => by rw [← hp.countP_eq]; exact h.count v⟩

theorem ordered_enter {acc : Accumulator} (hf : acc.fold.ordersValues = true) (v : Value) :
    (acc.enter v).ordered = if v.isNull then acc.ordered else acc.ordered.add v := by
  obtain ⟨fold, contributions, integers, doubles, doubleCount, numberCount, ordered⟩ := acc
  cases fold <;> cases hf
  all_goals
    simp only [enter]
    split <;> rfl

theorem ordered_leave {acc : Accumulator} (hf : acc.fold.ordersValues = true) (v : Value) :
    (acc.leave v).ordered = if v.isNull then acc.ordered else acc.ordered.remove v := by
  obtain ⟨fold, contributions, integers, doubles, doubleCount, numberCount, ordered⟩ := acc
  cases fold <;> cases hf
  all_goals
    simp only [leave]
    split <;> rfl

theorem Bags.enter {acc : Accumulator} {vs : List Value} (hf : acc.fold.ordersValues = true)
    (h : acc.Bags vs) (v : Value) : (acc.enter v).Bags (v :: vs) := by
  by_cases hnull : v.isNull
  · have hsame : (acc.enter v).ordered = acc.ordered := by rw [ordered_enter hf, if_pos hnull]
    refine ⟨hsame ▸ h.ordered, fun w => ?_⟩
    rw [hsame, h.count w, List.countP_cons]
    by_cases hw : w.isNull
    · rw [if_pos hw, if_pos hw]
    · have hne : v ≠ w := fun e => hw (e ▸ hnull)
      rw [if_neg hw, if_neg hw, decide_eq_false hne]
      rfl
  · have hadd : (acc.enter v).ordered = acc.ordered.add v := by rw [ordered_enter hf, if_neg hnull]
    refine ⟨hadd ▸ Bag.ordered_add v h.ordered, fun w => ?_⟩
    rw [hadd, Bag.count_add v w h.ordered, h.count w, List.countP_cons]
    by_cases hw : w.isNull
    · have hne : v ≠ w := fun e => hnull (e ▸ hw)
      rw [if_pos hw, if_pos hw, if_neg hne]
    · simp only [if_neg hw, decide_eq_true_eq]

theorem Bags.leave {acc : Accumulator} {vs : List Value} (hf : acc.fold.ordersValues = true)
    {v : Value} (h : acc.Bags (v :: vs)) : (acc.leave v).Bags vs := by
  by_cases hnull : v.isNull
  · have hsame : (acc.leave v).ordered = acc.ordered := by rw [ordered_leave hf, if_pos hnull]
    refine ⟨hsame ▸ h.ordered, fun w => ?_⟩
    rw [hsame, h.count w, List.countP_cons]
    by_cases hw : w.isNull
    · rw [if_pos hw, if_pos hw]
    · have hne : v ≠ w := fun e => hw (e ▸ hnull)
      rw [if_neg hw, if_neg hw, decide_eq_false hne]
      rfl
  · have hrem : (acc.leave v).ordered = acc.ordered.remove v := by
      rw [ordered_leave hf, if_neg hnull]
    refine ⟨hrem ▸ Bag.ordered_remove v h.ordered, fun w => ?_⟩
    rw [hrem, Bag.count_remove v w h.ordered, h.count w, List.countP_cons]
    by_cases hw : w.isNull
    · rw [if_pos hw, if_pos hw, Nat.zero_sub]
    · simp only [if_neg hw, decide_eq_true_eq, Nat.add_sub_cancel]

/-! ## Accumulators -/

/-- What a fold keeps is that of values. -/
structure Tallies (acc : Accumulator) (values : List Value) : Prop where
  sums : acc.fold.needsNumbers = true → acc.Sums values
  bags : acc.fold.ordersValues = true → acc.Bags values

/-- What is kept is that of the contributions. -/
def Regular (acc : Accumulator) : Prop := acc.Tallies acc.contributions.values

theorem fold_enter (acc : Accumulator) (v : Value) : (acc.enter v).fold = acc.fold := by
  unfold enter
  split <;> (try split) <;> rfl

theorem fold_leave (acc : Accumulator) (v : Value) : (acc.leave v).fold = acc.fold := by
  unfold leave
  split <;> (try split) <;> rfl

theorem contributions_enter (acc : Accumulator) (v : Value) :
    (acc.enter v).contributions = acc.contributions := by
  unfold enter
  split <;> (try split) <;> rfl

theorem fold_remove (acc : Accumulator) (h : Handle) : (acc.remove h).fold = acc.fold := by
  unfold remove
  split
  · exact fold_leave _ _
  · rfl

theorem fold_add (acc : Accumulator) (h : Handle) (v : Value) : (acc.add h v).fold = acc.fold :=
  (fold_enter _ _).trans (fold_remove _ _)

theorem contributions_remove (acc : Accumulator) (h i : Handle) :
    (acc.remove h).contributions[i]? = if h = i then none else acc.contributions[i]? := by
  unfold remove
  split
  · simp only [Std.ExtTreeMap.getElem?_erase, Nat.compare_eq_eq]
  · next hnone =>
    split
    · next heq => exact heq ▸ hnone
    · rfl

theorem contributions_add (acc : Accumulator) (h i : Handle) (v : Value) :
    (acc.add h v).contributions[i]? = if h = i then some v else acc.contributions[i]? := by
  have hrest := contributions_remove acc h i
  simp only [add, contributions_enter, Std.ExtTreeMap.getElem?_insert, Nat.compare_eq_eq]
  split
  · rfl
  · next hne => rw [hrest, if_neg hne]

theorem Tallies.enter {acc : Accumulator} {vs : List Value} (h : acc.Tallies vs) (v : Value) :
    (acc.enter v).Tallies (v :: vs) :=
  ⟨fun hf => (h.sums (fold_enter acc v ▸ hf)).enter (fold_enter acc v ▸ hf) v,
    fun hf => (h.bags (fold_enter acc v ▸ hf)).enter (fold_enter acc v ▸ hf) v⟩

theorem Tallies.leave {acc : Accumulator} {vs : List Value} {v : Value}
    (h : acc.Tallies (v :: vs)) : (acc.leave v).Tallies vs :=
  ⟨fun hf => (h.sums (fold_leave acc v ▸ hf)).leave (fold_leave acc v ▸ hf),
    fun hf => (h.bags (fold_leave acc v ▸ hf)).leave (fold_leave acc v ▸ hf)⟩

theorem Tallies.perm {acc : Accumulator} {vs ws : List Value} (h : acc.Tallies vs)
    (hp : vs.Perm ws) : acc.Tallies ws :=
  ⟨fun hf => (h.sums hf).perm hp, fun hf => (h.bags hf).perm hp⟩

theorem Tallies.of_contributions {acc : Accumulator} {vs : List Value} (h : acc.Tallies vs)
    (contributions : Std.ExtTreeMap Handle Value) : { acc with contributions }.Tallies vs :=
  ⟨fun hf => ⟨(h.sums hf).integers, (h.sums hf).numbers, (h.sums hf).doubles, (h.sums hf).fresh⟩,
    fun hf => ⟨(h.bags hf).ordered, (h.bags hf).count⟩⟩

theorem regular_empty (fold : Fold) : (empty fold).Regular := by
  have hnone : (∅ : Std.ExtTreeMap Handle Value).values = [] := by
    rw [values_eq_map_toList]
    rfl
  unfold Regular
  rw [show (empty fold).contributions = ∅ from rfl, hnone]
  exact ⟨fun _ => ⟨rfl, rfl, rfl, fun _ => rfl⟩,
    fun _ => ⟨⟨List.Pairwise.nil, fun e he => absurd he List.not_mem_nil⟩, fun v => by
      rw [List.countP_nil, ite_self]; rfl⟩⟩

theorem Regular.remove {acc : Accumulator} (h : acc.Regular) (i : Handle) :
    (acc.remove i).Regular := by
  unfold Accumulator.remove
  split
  · next v hv =>
    exact (Tallies.perm h (values_erase_perm hv)).leave.of_contributions _
  · exact h

theorem Regular.add {acc : Accumulator} (h : acc.Regular) (i : Handle) (v : Value) :
    (acc.add i v).Regular := by
  have hnew : (acc.remove i).contributions[i]? = none := by
    rw [contributions_remove, if_pos rfl]
  have htallies := ((h.remove i).enter v).perm (values_insert_perm hnew).symm
  have hsame := contributions_enter (acc.remove i) v
  unfold Regular Accumulator.add
  simp only [hsame]
  exact htallies.of_contributions _

/-! ## Contributors -/

theorem contains_iff {acc : Accumulator} {h : Handle} :
    acc.contains h = true ↔ ∃ v, acc.contributions[h]? = some v := by
  rw [contains, Std.ExtTreeMap.contains_eq_isSome_getElem?, Option.isSome_iff_exists]

theorem mem_contributors {acc : Accumulator} {h : Handle} :
    h ∈ acc.contributors ↔ acc.contains h = true := by
  rw [contributors, Std.ExtTreeMap.mem_keys, contains, Std.ExtTreeMap.mem_iff_contains]

theorem contains_add {acc : Accumulator} {h i : Handle} {v : Value} :
    (acc.add h v).contains i = true ↔ i = h ∨ acc.contains i = true := by
  rw [contains_iff, contains_iff, contributions_add]
  split
  · next heq => exact ⟨fun _ => Or.inl heq.symm, fun _ => ⟨v, rfl⟩⟩
  · next hne => exact ⟨Or.inr, fun h => h.resolve_left fun e => hne e.symm⟩

theorem contains_remove {acc : Accumulator} {h i : Handle} :
    (acc.remove h).contains i = true ↔ i ≠ h ∧ acc.contains i = true := by
  rw [contains_iff, contains_iff, contributions_remove]
  split
  · next heq =>
    constructor
    · rintro ⟨w, hw⟩
      cases hw
    · exact fun h => absurd heq.symm h.1
  · next hne => exact ⟨fun h => ⟨fun e => hne e.symm, h⟩, fun h => h.2⟩

/-- The accumulator of facts that contribute each its own value. -/
theorem ofList_spec (fold : Fold) (f : Handle → Value) (facts : List Handle) :
    (ofList fold (facts.map fun h => (h, f h))).fold = fold ∧
    (ofList fold (facts.map fun h => (h, f h))).Regular ∧
    ∀ i, (ofList fold (facts.map fun h => (h, f h))).contributions[i]? =
      if i ∈ facts then some (f i) else none := by
  have hstep : ∀ (facts : List Handle) (acc : Accumulator), acc.Regular →
      ((facts.map fun h => (h, f h)).foldl (fun acc c => acc.add c.1 c.2) acc).fold = acc.fold ∧
      ((facts.map fun h => (h, f h)).foldl (fun acc c => acc.add c.1 c.2) acc).Regular ∧
      ∀ i, ((facts.map fun h => (h, f h)).foldl
        (fun acc c => acc.add c.1 c.2) acc).contributions[i]? =
          if i ∈ facts then some (f i) else acc.contributions[i]? := by
    intro facts
    induction facts with
    | nil => exact fun acc h => ⟨rfl, h, fun i => (if_neg List.not_mem_nil).symm⟩
    | cons h rest ih =>
      intro acc hacc
      obtain ⟨hfold, hreg, hmem⟩ := ih (acc.add h (f h)) (hacc.add h (f h))
      refine ⟨hfold.trans (fold_add _ _ _), hreg, fun i => ?_⟩
      rw [List.map_cons, List.foldl_cons, hmem i, contributions_add]
      by_cases hi : i ∈ rest
      · rw [if_pos hi, if_pos (List.mem_cons_of_mem _ hi)]
      · by_cases heq : h = i
        · subst heq
          rw [if_neg hi, if_pos rfl, if_pos List.mem_cons_self]
        · have hno : i ∉ h :: rest := by
            rw [List.mem_cons, not_or]
            exact ⟨fun e => heq e.symm, hi⟩
          rw [if_neg hi, if_neg heq, if_neg hno]
  obtain ⟨hfold, hreg, hmem⟩ := hstep facts (empty fold) (regular_empty fold)
  refine ⟨hfold, hreg, fun i => ?_⟩
  rw [ofList, hmem i]
  rfl

/-! ## Results -/

theorem Bags.values_eq {acc : Accumulator} {vs : List Value} (h : acc.Bags vs) :
    acc.ordered.values = Value.ascending vs := by
  have hpairs : acc.ordered.values.Pairwise fun a b => a.totalCompare b = .lt :=
    List.pairwise_map.2 h.ordered.1
  refine eq_of_ascending (fun a b hab hba => ?_) hpairs (Value.pairwise_ascending vs) fun v => ?_
  · have hself := Std.TransCmp.lt_trans hab hba
    rw [Value.totalCompare_self] at hself
    cases hself
  · rw [Bag.mem_values_iff h.ordered, h.count v, Value.mem_ascending]
    by_cases hv : v.isNull = true
    · simp [hv]
    · rw [if_neg hv, List.countP_pos_iff]
      simp [hv]

/-- The result of a regular accumulator is its contributions folded at once, where no double is
    summed. -/
theorem Regular.result?_eq {acc : Accumulator} (h : acc.Regular)
    (hd : acc.fold.needsNumbers = true → ∀ v ∈ acc.contributions.values, v.isDouble = false) :
    acc.result? = acc.fold.over acc.contributions.values := by
  obtain ⟨hsums, hbags⟩ := h
  have hnone : acc.fold.needsNumbers = true → acc.doubleCount = 0 := fun hf => by
    rw [(hsums hf).doubles, List.countP_eq_zero]
    exact fun v hv => by simp [hd hf v hv]
  have hsize : acc.contributions.values.length = acc.size := by
    rw [values_eq_map_toList, List.length_map, Std.ExtTreeMap.length_toList, size]
  cases hf : acc.fold with
  | count => simp only [result?, Fold.over, hf, hsize]
  | sum f =>
    have hneeds : acc.fold.needsNumbers = true := by rw [hf]; rfl
    simp only [result?, Fold.over, hf, total, if_pos (hnone hneeds), (hsums hneeds).integers]
  | average f =>
    have hneeds : acc.fold.needsNumbers = true := by rw [hf]; rfl
    have hs := hsums hneeds
    simp only [result?, Fold.over, hf, doubleTotal, hs.fresh (hnone hneeds),
      Binary64.ofInt_add_zero, hs.numbers, hs.integers]
  | least f => simp only [result?, Fold.over, hf, (hbags (by rw [hf]; rfl)).values_eq]
  | greatest f => simp only [result?, Fold.over, hf, (hbags (by rw [hf]; rfl)).values_eq]
  | distinct f => simp only [result?, Fold.over, hf, (hbags (by rw [hf]; rfl)).values_eq]
  | list f => simp only [result?, Fold.over, hf]

end Accumulator

end RuleNet
