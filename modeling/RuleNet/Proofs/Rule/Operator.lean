/-
  How the operators of constraints hang together.

  * `Value.partialCompare_swap`, `Value.looseEq_comm`: both relations may be read from either side.
  * `Value.looseEq_of_scalar`: unless containers are compared, being equal is being neither less nor
    greater.
  * `Value.looseEq_object`: objects are equal if they have as many names and what one holds under a
    name equals what the other holds there; entries are compared one after the other, which comes
    to the same because the names are in order.
  * `Operator.apply_laws`: the laws together.
-/
import Mathlib.Data.List.Perm.Subperm
import RuleNet.Proofs.Data.Entries
import RuleNet.Proofs.Value.Order
import RuleNet.Rule.Operator

namespace RuleNet

instance : Std.LawfulEqCmp Instant.compare where
  eq_of_compare := Instant.eq_of_compare

/-! ## Names -/

namespace Entries

variable {α β : Type}

theorem Ordered.names {entries : Entries α} (h : entries.Ordered) :
    entries.names.Pairwise fun a b => compare a b = .lt := List.pairwise_map.2 h

/-- Records in order with as many names, one of which has every name of the other, have the same
    names in the same places. -/
theorem names_eq_of_subset {xs : Entries α} {ys : Entries β} (hx : xs.Ordered) (hy : ys.Ordered)
    (hlength : xs.length = ys.length) (hsub : xs.names ⊆ ys.names) : xs.names = ys.names := by
  have hasymm : ∀ a b : String, compare a b = .lt → ¬ compare b a = .lt := fun a b hab hba => by
    rw [Std.OrientedOrd.eq_swap (a := b), hab] at hba
    cases hba
  have hnodup : xs.names.Nodup := hx.names.imp fun {a b} hab heq => by
    rw [heq, Std.ReflOrd.compare_self] at hab
    cases hab
  have hperm : xs.names.Perm ys.names := by
    refine (List.subperm_of_subset hnodup hsub).perm_of_length_le ?_
    simp only [Entries.names, List.length_map, hlength, Nat.le_refl]
  exact eq_of_ascending hasymm hx.names hy.names fun _ => hperm.mem_iff

end Entries

/-! ## Sides -/

theorem Binary64.partialCompare_swap (x y : Binary64) :
    y.partialCompare x = (x.partialCompare y).map Ordering.swap := by
  unfold partialCompare
  rw [Bool.or_comm]
  split
  · rfl
  · exact congrArg some Std.OrientedOrd.eq_swap

namespace Value

/-- Whether a value is made of values. -/
def isContainer : Value → Bool
  | array _ | object _ => true
  | _ => false

theorem partialCompare_swap (v w : Value) :
    w.partialCompare v = (v.partialCompare w).map Ordering.swap := by
  cases v with
  | null => cases w <;> rfl
  | boolean a =>
    cases w with
    | boolean b => exact congrArg some Std.OrientedOrd.eq_swap
    | _ => rfl
  | integer i =>
    cases w with
    | integer j => exact congrArg some Std.OrientedOrd.eq_swap
    | double y => exact Binary64.partialCompare_swap _ _
    | _ => rfl
  | double x =>
    cases w with
    | integer j => exact Binary64.partialCompare_swap _ _
    | double y => exact Binary64.partialCompare_swap _ _
    | _ => rfl
  | text s =>
    cases w with
    | text t => exact congrArg some Std.OrientedOrd.eq_swap
    | _ => rfl
  | date t =>
    cases w with
    | date u => exact congrArg some (@Std.OrientedCmp.eq_swap _ Instant.compare _ _ _)
    | _ => rfl
  | array _ | object _ => cases w <;> rfl

/-- What is less or greater seen from one side is greater or less seen from the other. -/
theorem partialCompare_beq_swap (v w : Value) (o : Ordering) :
    (w.partialCompare v == some o.swap) = (v.partialCompare w == some o) := by
  rw [partialCompare_swap v w]
  cases v.partialCompare w with
  | none => rfl
  | some p => cases p <;> cases o <;> rfl

/-- Containers are in no order. -/
theorem partialCompare_container {v : Value} (h : v.isContainer = true) (w : Value) :
    v.partialCompare w = none := by
  cases v with
  | array _ | object _ => cases w <;> rfl
  | _ => cases h

/-! ## Equality -/

/-- Unless containers are compared, values are equal if they are in one place. -/
theorem looseEq_of_scalar {v w : Value} (h : v.isContainer = false ∨ w.isContainer = false) :
    v.looseEq w = (v.partialCompare w == some .eq) := by
  cases v with
  | null => cases w <;> simp [looseEq, equal, partialCompare]
  | boolean a =>
    cases w with
    | boolean b => cases a <;> cases b <;> rfl
    | _ => simp [looseEq, equal, partialCompare]
  | integer i =>
    cases w with
    | integer j =>
      rw [looseEq, partialCompare, Bool.eq_iff_iff]
      simp only [beq_iff_eq, Option.some.injEq, Int.compare_eq_eq, Int64.toInt_inj]
    | double y => rfl
    | _ => simp [looseEq, equal, partialCompare]
  | double x =>
    cases w with
    | integer j => rfl
    | double y => rfl
    | _ => simp [looseEq, equal, partialCompare]
  | text s =>
    cases w with
    | text t =>
      rw [partialCompare, Bool.eq_iff_iff]
      simp [looseEq, equal]
    | _ => simp [looseEq, equal, partialCompare]
  | date t =>
    cases w with
    | date u =>
      have heq : t.compare u = .eq ↔ t = u := Std.LawfulEqCmp.compare_eq_iff_eq
      rw [partialCompare, Bool.eq_iff_iff]
      simp [looseEq, equal, heq]
    | _ => simp [looseEq, equal, partialCompare]
  | array xs =>
    cases w with
    | array ys => simp [isContainer] at h
    | _ => simp [looseEq, equal, partialCompare]
  | object xs =>
    cases w with
    | object ys => simp [isContainer] at h
    | _ => simp [looseEq, equal, partialCompare]

theorem looseEq_comm_of_scalar {v : Value} (h : v.isContainer = false) (w : Value) :
    v.looseEq w = w.looseEq v := by
  rw [looseEq_of_scalar (Or.inl h), looseEq_of_scalar (Or.inr h), ← partialCompare_beq_swap v w]
  rfl

mutual

theorem looseEq_comm : ∀ v w : Value, v.looseEq w = w.looseEq v
  | array xs, w => by
    cases w with
    | array ys => exact looseEqItems_comm xs ys
    | _ => simp [looseEq, equal]
  | object xs, w => by
    cases w with
    | object ys => exact looseEqEntries_comm xs ys
    | _ => simp [looseEq, equal]
  | null, w => looseEq_comm_of_scalar rfl w
  | boolean b, w => looseEq_comm_of_scalar (v := boolean b) rfl w
  | integer i, w => looseEq_comm_of_scalar (v := integer i) rfl w
  | double x, w => looseEq_comm_of_scalar (v := double x) rfl w
  | text s, w => looseEq_comm_of_scalar (v := text s) rfl w
  | date t, w => looseEq_comm_of_scalar (v := date t) rfl w

theorem looseEqItems_comm : ∀ xs ys : List Value, looseEqItems xs ys = looseEqItems ys xs
  | [], ys => by cases ys <;> rfl
  | x :: xs, ys => by
    cases ys with
    | nil => rfl
    | cons y ys => rw [looseEqItems, looseEqItems, looseEq_comm x y, looseEqItems_comm xs ys]

theorem looseEqEntries_comm : ∀ xs ys : List (String × Value),
    looseEqEntries xs ys = looseEqEntries ys xs
  | [], ys => by cases ys <;> rfl
  | (k, x) :: xs, ys => by
    cases ys with
    | nil => rfl
    | cons y ys =>
      obtain ⟨l, y⟩ := y
      rw [looseEqEntries, looseEqEntries, looseEq_comm x y, looseEqEntries_comm xs ys,
        BEq.comm (a := k)]

end

/-! ## Objects -/

/-- What one record holds under a name, the other holds a loosely equal value under. -/
def CoveredBy (xs ys : Entries Value) : Prop :=
  ∀ name v, xs.find? name = some v → ∃ w, ys.find? name = some w ∧ v.looseEq w = true

theorem CoveredBy.names_subset {xs ys : Entries Value} (hx : xs.Ordered) (hy : ys.Ordered)
    (h : CoveredBy xs ys) : xs.names ⊆ ys.names := by
  intro name hname
  obtain ⟨⟨k, v⟩, hmem, rfl⟩ := List.mem_map.1 hname
  obtain ⟨w, hw, -⟩ := h k v ((Entries.mem_iff hx).1 hmem)
  exact List.mem_map.2 ⟨(k, w), (Entries.mem_iff hy).2 hw, rfl⟩

theorem looseEqEntries_of_names {xs : Entries Value} : ∀ {ys : Entries Value}, xs.Ordered →
    ys.Ordered → xs.names = ys.names → CoveredBy xs ys → looseEqEntries xs ys = true := by
  induction xs with
  | nil =>
    intro ys _ _ hnames _
    cases ys with
    | nil => rfl
    | cons e rest => cases hnames
  | cons e xs ih =>
    obtain ⟨k, x⟩ := e
    intro ys hx hy hnames h
    cases ys with
    | nil => cases hnames
    | cons e ys =>
      obtain ⟨l, y⟩ := e
      obtain ⟨rfl, hrest⟩ := List.cons.inj hnames
      obtain ⟨w, hw, hxw⟩ := h k x (if_pos rfl)
      obtain rfl : y = w := Option.some.inj ((if_pos rfl).symm.trans hw)
      have hcovered : CoveredBy xs ys := by
        intro name v hv
        have hne : k ≠ name := fun heq => by
          rw [← heq, Entries.find?_rest hx] at hv
          cases hv
        obtain ⟨w, hw, hvw⟩ := h name v ((if_neg hne).trans hv)
        exact ⟨w, (if_neg hne).symm.trans hw, hvw⟩
      have hxs := ih (List.pairwise_cons.1 hx).2 (List.pairwise_cons.1 hy).2 hrest hcovered
      rw [looseEqEntries, hxw, hxs, beq_self_eq_true]
      rfl

theorem coveredBy_of_looseEqEntries {xs : Entries Value} : ∀ {ys : Entries Value},
    looseEqEntries xs ys = true → xs.length = ys.length ∧ CoveredBy xs ys := by
  induction xs with
  | nil =>
    intro ys h
    cases ys with
    | nil => exact ⟨rfl, fun _ _ hv => by cases hv⟩
    | cons e rest => cases h
  | cons e xs ih =>
    obtain ⟨k, x⟩ := e
    intro ys h
    cases ys with
    | nil => cases h
    | cons e ys =>
      obtain ⟨l, y⟩ := e
      simp only [looseEqEntries, Bool.and_eq_true, beq_iff_eq] at h
      obtain ⟨⟨rfl, hxy⟩, hrest⟩ := h
      obtain ⟨hlength, hcovered⟩ := ih hrest
      refine ⟨congrArg Nat.succ hlength, fun name v hv => ?_⟩
      rw [Entries.find?_cons] at hv ⊢
      split at hv
      · next heq =>
        obtain rfl := Option.some.inj hv
        exact ⟨y, if_pos heq, hxy⟩
      · next hne =>
        obtain ⟨w, hw, hvw⟩ := hcovered name v hv
        exact ⟨w, (if_neg hne).trans hw, hvw⟩

/-- Objects are loosely equal if they have as many names, and what the one holds under a name is
    loosely equal to what the other holds there. -/
theorem looseEq_object {xs ys : Entries Value} (hx : xs.Ordered) (hy : ys.Ordered) :
    (object xs).looseEq (object ys) = true ↔ xs.length = ys.length ∧ CoveredBy xs ys := by
  constructor
  · exact coveredBy_of_looseEqEntries
  · rintro ⟨hlength, h⟩
    have hnames := Entries.names_eq_of_subset hx hy hlength (h.names_subset hx hy)
    exact looseEqEntries_of_names hx hy hnames h

end Value

/-! ## The laws -/

namespace Operator

/-- No two of being less, equal and greater hold at once. -/
theorem countP_trichotomy (v w : Value) :
    [less, equal, greater].countP (fun operator => operator.apply v w) ≤ 1 := by
  cases hc : v.partialCompare w with
  | none =>
    cases he : v.looseEq w <;> simp [apply, hc, he]
  | some o =>
    have hscalar : v.isContainer = false := Bool.eq_false_iff.2 fun hv => by
      rw [Value.partialCompare_container hv] at hc
      cases hc
    have hequal := Value.looseEq_of_scalar (w := w) (Or.inl hscalar)
    cases o <;> simp [apply, hequal, hc]

theorem greaterOrEqual_of_scalar {v w : Value}
    (h : v.isContainer = false ∨ w.isContainer = false) :
    greaterOrEqual.apply v w = (greater.apply v w || equal.apply v w) := by
  simp only [apply, Value.looseEq_of_scalar h]

/-- A container question has an answer where the first side is an array, or both are strings. -/
theorem contains?_isSome {v w : Value} : (contains? v w).isSome = true ↔
    (∃ items, v = .array items) ∨ ∃ s t, v = .text s ∧ w = .text t := by
  cases v with
  | text s => cases w <;> simp [contains?]
  | array items => simp [contains?]
  | _ => cases w <;> simp [contains?]

theorem contains_and_notContains (v w : Value) :
    (contains.apply v w && notContains.apply v w) = false := by
  simp only [apply]
  rcases contains? v w with _ | (_ | _) <;> rfl

theorem contains_or_notContains (v w : Value) :
    (contains.apply v w || notContains.apply v w) = (contains? v w).isSome := by
  simp only [apply]
  rcases contains? v w with _ | (_ | _) <;> rfl

/-- Equality is symmetric, inside containers too, and inequality is its opposite. Each comparison is
    the opposite one with the sides exchanged, and at most one of less, equal and greater holds.
    Where no containers are compared, greater or equal is what its name says. Containing and not
    containing exclude each other, and one of them holds where the question makes sense. Being a
    member is being contained. -/
theorem apply_laws (v w : Value) :
    equal.apply v w = equal.apply w v ∧
    (∀ xs ys : Entries Value, xs.Ordered → ys.Ordered →
      (equal.apply (.object xs) (.object ys) = true ↔ xs.length = ys.length ∧
        ∀ name x, xs.find? name = some x →
          ∃ y, ys.find? name = some y ∧ equal.apply x y = true)) ∧
    notEqual.apply v w = !equal.apply v w ∧
    greater.apply v w = less.apply w v ∧
    greaterOrEqual.apply v w = lessOrEqual.apply w v ∧
    [less, equal, greater].countP (fun operator => operator.apply v w) ≤ 1 ∧
    (v.isContainer = false ∨ w.isContainer = false →
      greaterOrEqual.apply v w = (greater.apply v w || equal.apply v w)) ∧
    (contains.apply v w && notContains.apply v w) = false ∧
    ((contains.apply v w || notContains.apply v w) = true ↔
      (∃ items, v = .array items) ∨ ∃ s t, v = .text s ∧ w = .text t) ∧
    memberOf.apply v w = contains.apply w v := by
  have hgreater := Value.partialCompare_beq_swap v w .gt
  have hequal := Value.partialCompare_beq_swap v w .eq
  refine ⟨Value.looseEq_comm v w, fun _ _ hx hy => Value.looseEq_object hx hy, rfl, hgreater.symm,
    ?_, countP_trichotomy v w, greaterOrEqual_of_scalar, contains_and_notContains v w, ?_, rfl⟩
  · rw [Ordering.swap_gt] at hgreater
    rw [Ordering.swap_eq] at hequal
    simp only [apply, hgreater, hequal]
  · rw [contains_or_notContains]
    exact contains?_isSome

/-- An integer equals the double that it is rounded to, from both sides, in an object too. -/
theorem apply_laws_rounded :
    let v := Value.integer 9007199254740993
    let w := Value.double ⟨0x4340000000000000⟩
    let xs : Entries Value := [("a", .array [v, .null]), ("b", w)]
    let ys : Entries Value := [("a", .array [w, .null]), ("b", v)]
    v.isContainer = false ∧ equal.apply v w = true ∧ equal.apply w v = true ∧
    greaterOrEqual.apply v w = (greater.apply v w || equal.apply v w) ∧
    xs.Ordered ∧ ys.Ordered ∧ (equal.apply (.object xs) (.object ys) = true ↔
      xs.length = ys.length ∧ ∀ name x, xs.find? name = some x →
        ∃ y, ys.find? name = some y ∧ equal.apply x y = true) := by
  intro v w xs ys
  have hvw : equal.apply v w = true := by decide +kernel
  have hordered : ∀ x y : Value, Entries.Ordered [("a", x), ("b", y)] := fun x y =>
    List.pairwise_pair.2 (show compare "a" "b" = .lt by decide)
  obtain ⟨hcomm, hobject, -, -, -, -, hscalar, -⟩ := apply_laws v w
  exact ⟨rfl, hvw, hcomm ▸ hvw, hscalar (Or.inl rfl), hordered _ _, hordered _ _,
    hobject _ _ (hordered _ _) (hordered _ _)⟩

end Operator

end RuleNet
