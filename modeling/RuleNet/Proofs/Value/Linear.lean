/-
  The total order of values is linear and goes on from the order of constraints.

  * `Value.totalCompare_of_partialCompare`: whatever constraints find less or greater, the total
    order finds less or greater.
  * `Value.totalCompare_object`: objects compare equal exactly if they hold the same under every
    name.
  * `Value.totalCompare_linear`: the laws together.
-/
import RuleNet.Proofs.Data.Entries
import RuleNet.Proofs.Value.Order

namespace RuleNet

/-! ## Doubles -/

namespace Binary64

/-- A number in a lower place is lower among all bit patterns. -/
theorem totalOrdinal_lt {x y : Binary64} (h : x.ordinal < y.ordinal) :
    x.totalOrdinal < y.totalOrdinal := by
  unfold ordinal at h
  unfold totalOrdinal
  cases hx : x.isNegative <;> cases hy : y.isNegative
  all_goals
    simp only [hx, hy, if_true, Bool.false_eq_true, if_false] at h ⊢
    omega

theorem totalCompare_of_partialCompare {x y : Binary64} {o : Ordering} (ho : o ≠ .eq)
    (h : x.partialCompare y = some o) : x.totalCompare y = o := by
  unfold partialCompare at h
  split at h
  · cases h
  · have hc : compare x.ordinal y.ordinal = o := Option.some.inj h
    cases o with
    | eq => exact absurd rfl ho
    | lt => exact Int.compare_eq_lt.2 (totalOrdinal_lt (Int.compare_eq_lt.1 hc))
    | gt => exact Int.compare_eq_gt.2 (totalOrdinal_lt (Int.compare_eq_gt.1 hc))

end Binary64

namespace Value

/-! ## The order of constraints -/

/-- What constraints find less or greater is so in the total order. -/
theorem totalCompare_of_partialCompare {v w : Value} {o : Ordering} (ho : o ≠ .eq)
    (h : v.partialCompare w = some o) : v.totalCompare w = o := by
  have hthen : ∀ p : Ordering, o.then p = o := fun p => by
    cases o with
    | eq => exact absurd rfl ho
    | lt | gt => rfl
  cases v with
  | null =>
    cases w with
    | null => exact Option.some.inj h
    | _ => cases h
  | boolean a =>
    cases w with
    | boolean b => exact Option.some.inj h
    | _ => cases h
  | integer i =>
    cases w with
    | integer j => exact Option.some.inj h
    | double y =>
      rw [totalCompare, Binary64.totalCompare_of_partialCompare ho h]
      exact hthen .lt
    | _ => cases h
  | double x =>
    cases w with
    | integer j =>
      rw [totalCompare, Binary64.totalCompare_of_partialCompare ho h]
      exact hthen .gt
    | double y => exact Binary64.totalCompare_of_partialCompare ho h
    | _ => cases h
  | text s =>
    cases w with
    | text t => exact Option.some.inj h
    | _ => cases h
  | date t =>
    cases w with
    | date u => exact Option.some.inj h
    | _ => cases h
  | array _ | object _ => cases w <;> cases h

/-! ## Linearity -/

theorem le_trans {u v w : Value} (huv : u.totalCompare v ≠ .gt) (hvw : v.totalCompare w ≠ .gt) :
    u.totalCompare w ≠ .gt :=
  Ordering.isLE_iff_ne_gt.1 (Std.TransCmp.isLE_trans (Ordering.isLE_iff_ne_gt.2 huv)
    (Ordering.isLE_iff_ne_gt.2 hvw))

theorem totalCompare_eq_iff {v w : Value} : v.totalCompare w = .eq ↔ v = w :=
  Std.LawfulEqCmp.compare_eq_iff_eq

/-- Objects are compared as what they hold under names. -/
theorem totalCompare_object {xs ys : Entries Value} (hx : xs.Ordered) (hy : ys.Ordered) :
    (object xs).totalCompare (object ys) = .eq ↔ ∀ name, xs.find? name = ys.find? name := by
  rw [totalCompare_eq_iff, object.injEq]
  exact ⟨fun h name => h ▸ rfl, Entries.ext hx hy⟩

/-- The total order is linear: transitive, reversed where its sides are, and equal on identical
    values only, bit for bit in doubles and as a map in objects. What constraints find less or
    greater is so in it. -/
theorem totalCompare_linear (u v w : Value) :
    (u.totalCompare v ≠ .gt → v.totalCompare w ≠ .gt → u.totalCompare w ≠ .gt) ∧
    v.totalCompare u = (u.totalCompare v).swap ∧
    (u.totalCompare v = .eq ↔ u = v) ∧
    (∀ xs ys : Entries Value, xs.Ordered → ys.Ordered →
      ((object xs).totalCompare (object ys) = .eq ↔ ∀ name, xs.find? name = ys.find? name)) ∧
    (u.partialCompare v = some .lt → u.totalCompare v = .lt) ∧
    (u.partialCompare v = some .gt → u.totalCompare v = .gt) :=
  ⟨le_trans, totalCompare_swap u v, totalCompare_eq_iff, fun _ _ hx hy => totalCompare_object hx hy,
    totalCompare_of_partialCompare (by decide), totalCompare_of_partialCompare (by decide)⟩

/-- The integer after `2^53` is rounded to the double `2^53` and so comes before it; the two integers
    keep their order, and so does what stands under one name in objects. -/
theorem totalCompare_linear_rounded :
    let u := integer 9007199254740992
    let v := integer 9007199254740993
    let w := double ⟨0x4340000000000000⟩
    u.totalCompare v ≠ .gt ∧ v.totalCompare w ≠ .gt ∧ u.totalCompare w ≠ .gt ∧
    v.totalCompare u = (u.totalCompare v).swap ∧ (u.totalCompare v = .eq ↔ u = v) ∧
    ((object [("a", v), ("b", u)]).totalCompare (object [("a", w), ("b", u)]) = .eq ↔
      ∀ name, Entries.find? name [("a", v), ("b", u)] = Entries.find? name [("a", w), ("b", u)]) ∧
    u.partialCompare v = some .lt ∧ u.totalCompare v = .lt := by
  intro u v w
  have huv : u.totalCompare v ≠ .gt := by decide +kernel
  have hvw : v.totalCompare w ≠ .gt := by decide +kernel
  have hless : u.partialCompare v = some .lt := by decide +kernel
  obtain ⟨htrans, hswap, heq, hobject, hlt, -⟩ := totalCompare_linear u v w
  have hordered : ∀ x y : Value, Entries.Ordered [("a", x), ("b", y)] := fun x y =>
    List.pairwise_pair.2 (show compare "a" "b" = .lt by decide)
  exact ⟨huv, hvw, htrans huv hvw, hswap, heq, hobject _ _ (hordered v u) (hordered w u), hless,
    hlt hless⟩

end Value

end RuleNet
