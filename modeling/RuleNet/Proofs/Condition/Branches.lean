/-
  The branches of a condition mean what the condition means.

  Negations are pushed inwards until they stand before single patterns, alternatives are pushed
  outwards. Each case of this is an equation between extensions of one binding, so it holds after
  whatever came before it.

  * `Condition.Allows`: the extensions that some of the branches allow.
  * `Condition.branches_meaning` and its companions: what the alternatives of a condition, of its
    absence and of its presence mean.
-/
import RuleNet.Proofs.Condition.Meaning
import RuleNet.Proofs.Network.Build

namespace RuleNet

variable {scene : Scene} {β β' : Binding}

/-! ## Universal conditions -/

namespace Constraint

theorem readVars_eq_nil {c : Constraint} : c.isConstant = true ↔ c.readVars = [] := by
  rw [isConstant, List.isEmpty_iff]

mutual

/-- A constant constraint does not depend on the binding. -/
theorem met_of_readVars (β β' : Binding) (entry : Entry) : ∀ c : Constraint, c.readVars = [] →
    met scene β entry c = met scene β' entry c
  | compare field operator operand, h => by
    cases operand with
    | literal value => rfl
    | var name => cases h
    | field name part => cases h
  | temporal relation name, h => by cases h
  | all items, h => by rw [met, met]; exact allMet_of_readVars β β' entry items h
  | any items, h => by rw [met, met]; exact anyMet_of_readVars β β' entry items h
  | not item, h => by rw [met, met, met_of_readVars β β' entry item h]

theorem allMet_of_readVars (β β' : Binding) (entry : Entry) : ∀ items : List Constraint,
    readVarsOfAll items = [] → allMet scene β entry items = allMet scene β' entry items
  | [], _ => rfl
  | item :: rest, h => by
    obtain ⟨h₁, h₂⟩ := List.append_eq_nil_iff.1 h
    rw [allMet, allMet, met_of_readVars β β' entry item h₁, allMet_of_readVars β β' entry rest h₂]

theorem anyMet_of_readVars (β β' : Binding) (entry : Entry) : ∀ items : List Constraint,
    readVarsOfAll items = [] → anyMet scene β entry items = anyMet scene β' entry items
  | [], _ => rfl
  | item :: rest, h => by
    obtain ⟨h₁, h₂⟩ := List.append_eq_nil_iff.1 h
    rw [anyMet, anyMet, met_of_readVars β β' entry item h₁, anyMet_of_readVars β β' entry rest h₂]

end

/-- Constraints may be checked in two parts. -/
theorem allMet_filter (entry : Entry) (P : Constraint → Bool) (items : List Constraint) :
    (allMet scene β entry (items.filter P) && allMet scene β entry (items.filter fun c => !P c)) =
      allMet scene β entry items := by
  induction items with
  | nil => rfl
  | cons item rest ih =>
    rw [allMet, ← ih]
    cases hp : P item
    · simp only [List.filter_cons, hp, Bool.not_false, if_true, Bool.false_eq_true, if_false, allMet]
      rw [Bool.and_left_comm]
    · simp only [List.filter_cons, hp, Bool.not_true, if_true, Bool.false_eq_true, if_false, allMet]
      rw [Bool.and_assoc]

end Constraint

namespace Pattern

/-- Whether a window that does not count its members sees a moment. -/
def sees (p : Pattern) (now moment : Moment) : Bool := match p.window with
  | some (.time length) => length.covers moment now
  | _ => true

/-- Without a length window a pattern goes with the facts that meet all of its constraints. -/
theorem partners_eq {p : Pattern} (hw : ∀ n, p.window ≠ some (.length n)) :
    p.partners scene β = scene.facts.filter fun fact =>
      fact.2.fact.type == p.type && (p.sees scene.now fact.2.moment &&
        Constraint.allMet scene β fact.2 p.constraints) := by
  have hconst : ∀ entry : Entry, Constraint.allMet scene .empty entry p.constants =
      Constraint.allMet scene β entry p.constants := by
    intro entry
    have hall : Constraint.readVarsOfAll p.constants = [] := by
      rw [constants]
      induction p.constraints with
      | nil => rfl
      | cons c rest ih =>
        rw [List.filter_cons]
        split
        · next hc => rw [Constraint.readVarsOfAll, Constraint.readVars_eq_nil.1 hc, ih]; rfl
        · exact ih
    exact Constraint.allMet_of_readVars _ _ _ _ hall
  have hsplit : ∀ entry : Entry, Constraint.allMet scene β entry p.constraints =
      (Constraint.allMet scene β entry p.constants &&
        Constraint.allMet scene β entry p.relations) := fun entry =>
    (Constraint.allMet_filter entry _ _).symm
  cases hwin : p.window with
  | none =>
    simp only [partners, members, hwin, List.filter_filter, hconst, hsplit, sees, Bool.true_and]
    congr 1
    funext fact
    rw [Bool.and_comm, Bool.and_assoc]
  | some window =>
    cases window with
    | time length =>
      simp only [partners, members, hwin, List.filter_filter, hconst, hsplit, sees]
      congr 1
      funext fact
      cases length.covers fact.2.moment scene.now <;>
        cases Constraint.allMet scene β fact.2 p.relations <;>
        simp [Bool.and_comm]
    | length capacity => exact absurd hwin (hw capacity)

/-- A fact violates a requirement if it matches the base and not the requirement. -/
theorem partners_violating {base : Pattern} (hw : ∀ n, base.window ≠ some (.length n))
    (require : List Constraint) : (base.violating require).partners scene β =
      (base.partners scene β).filter fun fact => !Constraint.allMet scene β fact.2 require := by
  rw [partners_eq hw, partners_eq (p := base.violating require) hw, List.filter_filter]
  congr 1
  funext fact
  simp only [violating, sees, Constraint.allMet_append, Constraint.allMet, Constraint.met,
    Bool.and_true]
  cases Constraint.allMet scene β fact.2 require <;> simp

end Pattern

namespace Condition

mutual

/-- The bases of the universal conditions that stand under an odd number of negations, or of those
    that stand under an even one if the condition itself is negated. -/
def negatedBases (negated : Bool) : Condition → List Pattern
  | all items => negatedBasesOfAll negated items
  | any items => negatedBasesOfAll negated items
  | absent item => negatedBases (!negated) item
  | present item => negatedBases negated item
  | every base _ => if negated then [base] else []
  | pattern _ | accumulate _ | predicate _ => []

def negatedBasesOfAll (negated : Bool) : List Condition → List Pattern
  | [] => []
  | item :: rest => negatedBases negated item ++ negatedBasesOfAll negated rest

end

/-- Whether no pattern is a length window. -/
def Unbounded (bases : List Pattern) : Prop := ∀ p ∈ bases, ∀ n, p.window ≠ some (.length n)

theorem Unbounded.append {xs ys : List Pattern} (h : Unbounded (xs ++ ys)) :
    Unbounded xs ∧ Unbounded ys :=
  ⟨fun p hp => h p (List.mem_append_left _ hp), fun p hp => h p (List.mem_append_right _ hp)⟩

/-! ## Alternatives in sequence -/

/-- The extensions of a binding by some of the branches. -/
def Allows (scene : Scene) (branches : Branches) (β β' : Binding) : Prop :=
  ∃ branch ∈ branches, β' ∈ Element.meaningOfAll scene branch β

theorem allows_one {e : Element} : Allows scene [[e]] β β' ↔ β' ∈ e.meaning scene β := by
  simp [Allows]

theorem allows_append {xs ys : Branches} :
    Allows scene (xs ++ ys) β β' ↔ Allows scene xs β β' ∨ Allows scene ys β β' := by
  simp [Allows, or_and_right, exists_or]

/-- The branches of a product go through those of the one and then those of the other. -/
theorem allows_product {xs ys zs : Branches} (h : xs.product ys = .ok zs) :
    Allows scene zs β β' ↔ ∃ β₁, Allows scene xs β β₁ ∧ Allows scene ys β₁ β' := by
  simp only [Branches.product] at h
  split at h
  · cases h
  · cases h
    simp only [Allows, List.mem_flatMap, List.mem_map]
    constructor
    · rintro ⟨-, ⟨x, hx, y, hy, rfl⟩, hβ⟩
      rw [Element.meaningOfAll_append, List.mem_flatMap] at hβ
      obtain ⟨β₁, h₁, h₂⟩ := hβ
      exact ⟨β₁, ⟨x, hx, h₁⟩, y, hy, h₂⟩
    · rintro ⟨β₁, ⟨x, hx, h₁⟩, y, hy, h₂⟩
      refine ⟨x ++ y, ⟨x, hx, y, hy, rfl⟩, ?_⟩
      rw [Element.meaningOfAll_append, List.mem_flatMap]
      exact ⟨β₁, h₁, h₂⟩

/-! ## The meaning of alternatives -/

mutual

/-- The alternatives of a condition. -/
theorem branches_meaning : ∀ (c : Condition) {bs : Branches}, c.branches = .ok bs →
    Unbounded (c.negatedBases false) → ∀ β β', Allows scene bs β β' ↔ β' ∈ c.meaning scene β
  | pattern p, bs, h, _, β, β' => by
    cases h
    rw [allows_one]
    rfl
  | all items, bs, h, hw, β, β' => by
    rw [branches] at h
    rw [branchesOfAll_meaning items h hw, meaning]
    simp [Allows, Element.meaningOfAll]
  | any items, bs, h, hw, β, β' => by
    rw [branches] at h
    split at h
    · cases h
    · rw [branchesOfAny_meaning items h hw, meaning]
  | absent item, bs, h, hw, β, β' => by
    rw [branches] at h
    rw [absentBranches_meaning item h hw, meaning, Binding.mem_passIf, List.isEmpty_iff]
  | present item, bs, h, hw, β, β' => by
    rw [branches] at h
    rw [presentBranches_meaning item h hw, meaning, Binding.mem_passIf, Bool.not_eq_true',
      List.isEmpty_eq_false_iff]
  | every base require, bs, h, _, β, β' => by
    cases h
    rw [allows_one]
    rfl
  | accumulate a, bs, h, _, β, β' => by
    cases h
    rw [allows_one]
    rfl
  | predicate p, bs, h, _, β, β' => by
    cases h
    rw [allows_one]
    rfl

/-- The alternatives of items in sequence, after those of what comes before. -/
theorem branchesOfAll_meaning : ∀ (items : List Condition) {before bs : Branches},
    branchesOfAll before items = .ok bs → Unbounded (negatedBasesOfAll false items) → ∀ β β',
    Allows scene bs β β' ↔ ∃ β₁, Allows scene before β β₁ ∧ β' ∈ meaningOfAll scene items β₁
  | [], before, bs, h, _, β, β' => by
    cases h
    simp [meaningOfAll]
  | item :: rest, before, bs, h, hw, β, β' => by
    obtain ⟨alternatives, halt, h⟩ := ok_of_bind h
    obtain ⟨next, hnext, h⟩ := ok_of_bind h
    rw [branchesOfAll_meaning rest h hw.append.2]
    simp only [allows_product hnext, branches_meaning item halt hw.append.1, meaningOfAll,
      List.mem_flatMap]
    constructor
    · rintro ⟨β₂, ⟨β₁, h₁, h₂⟩, h₃⟩
      exact ⟨β₁, h₁, β₂, h₂, h₃⟩
    · rintro ⟨β₁, h₁, β₂, h₂, h₃⟩
      exact ⟨β₂, ⟨β₁, h₁, h₂⟩, h₃⟩

/-- The alternatives of any of the items. -/
theorem branchesOfAny_meaning : ∀ (items : List Condition) {bs : Branches},
    branchesOfAny items = .ok bs → Unbounded (negatedBasesOfAll false items) → ∀ β β',
    Allows scene bs β β' ↔ β' ∈ meaningOfAny scene items β
  | [], bs, h, _, β, β' => by
    cases h
    simp [Allows, meaningOfAny]
  | item :: rest, bs, h, hw, β, β' => by
    obtain ⟨alternatives, halt, h⟩ := ok_of_bind h
    obtain ⟨others, hrest, h⟩ := ok_of_bind h
    cases h
    rw [allows_append, branches_meaning item halt hw.append.1,
      branchesOfAny_meaning rest hrest hw.append.2, meaningOfAny, List.mem_append]

/-- The alternatives of the absence of a condition. -/
theorem absentBranches_meaning : ∀ (c : Condition) {bs : Branches}, c.absentBranches = .ok bs →
    Unbounded (c.negatedBases true) → ∀ β β',
    Allows scene bs β β' ↔ β' = β ∧ c.meaning scene β = []
  | pattern p, bs, h, _, β, β' => by
    cases h
    rw [allows_one, Element.meaning, Binding.mem_passIf, List.isEmpty_iff, meaning]
  | any items, bs, h, hw, β, β' => by
    rw [absentBranches] at h
    rw [absentBranchesOfAll_meaning items h hw, meaning]
    simp only [Allows, List.mem_singleton, exists_eq_left, Element.meaningOfAll]
    constructor
    · rintro ⟨rfl, h⟩
      exact ⟨rfl, h⟩
    · rintro ⟨rfl, h⟩
      exact ⟨rfl, h⟩
  | all [item], bs, h, hw, β, β' => by
    rw [absentBranches] at h
    rw [absentBranches_meaning item h (fun p hp => hw p (List.mem_append_left _ hp)), meaning,
      meaningOfAll]
    exact and_congr_right fun _ => ⟨fun hn => by simp [hn], fun hn => by
      simpa [meaningOfAll] using hn⟩
  | all [], bs, h, _, β, β' => by simp [absentBranches] at h
  | all (_ :: _ :: _), bs, h, _, β, β' => by simp [absentBranches] at h
  | absent item, bs, h, hw, β, β' => by
    rw [absentBranches] at h
    rw [presentBranches_meaning item h hw, meaning, Binding.passIf_eq_nil,
      List.isEmpty_eq_false_iff]
  | present item, bs, h, hw, β, β' => by
    rw [absentBranches] at h
    rw [absentBranches_meaning item h hw, meaning, Binding.passIf_eq_nil, Bool.not_eq_false',
      List.isEmpty_iff]
  | every base require, bs, h, hw, β, β' => by
    cases h
    have hbase : ∀ n, base.window ≠ some (.length n) := hw base List.mem_cons_self
    rw [allows_one, Element.meaning, Binding.mem_passIf, Pattern.extensions,
      Pattern.partners_violating hbase, meaning, Binding.passIf_eq_nil]
    refine and_congr_right fun _ => ?_
    rw [Bool.not_eq_true', List.isEmpty_map, ← Bool.not_eq_true, List.isEmpty_iff,
      List.filter_eq_nil_iff, ← Bool.not_eq_true, List.all_eq_true]
    simp
  | predicate p, bs, h, _, β, β' => by
    cases h
    rw [allows_one, Element.meaning, Binding.mem_passIf, meaning, Binding.passIf_eq_nil,
      Predicate.negate, Bool.not_eq_true']
  | accumulate _, bs, h, _, β, β' => by cases h

/-- The alternatives of the absence of all items. -/
theorem absentBranchesOfAll_meaning : ∀ (items : List Condition) {before bs : Branches},
    absentBranchesOfAll before items = .ok bs → Unbounded (negatedBasesOfAll true items) → ∀ β β',
    Allows scene bs β β' ↔ Allows scene before β β' ∧ meaningOfAny scene items β' = []
  | [], before, bs, h, _, β, β' => by
    cases h
    simp [meaningOfAny]
  | item :: rest, before, bs, h, hw, β, β' => by
    obtain ⟨alternatives, halt, h⟩ := ok_of_bind h
    obtain ⟨next, hnext, h⟩ := ok_of_bind h
    rw [absentBranchesOfAll_meaning rest h hw.append.2, meaningOfAny, List.append_eq_nil_iff]
    simp only [allows_product hnext, absentBranches_meaning item halt hw.append.1]
    constructor
    · rintro ⟨⟨β₁, h₁, rfl, h₂⟩, h₃⟩
      exact ⟨h₁, h₂, h₃⟩
    · rintro ⟨h₁, h₂, h₃⟩
      exact ⟨⟨β', h₁, rfl, h₂⟩, h₃⟩

/-- The alternatives of the presence of a condition. -/
theorem presentBranches_meaning : ∀ (c : Condition) {bs : Branches}, c.presentBranches = .ok bs →
    Unbounded (c.negatedBases false) → ∀ β β',
    Allows scene bs β β' ↔ β' = β ∧ c.meaning scene β ≠ []
  | pattern p, bs, h, _, β, β' => by
    cases h
    rw [allows_one, Element.meaning, Binding.mem_passIf, Bool.not_eq_true',
      List.isEmpty_eq_false_iff, meaning]
  | any items, bs, h, hw, β, β' => by
    rw [presentBranches] at h
    rw [presentBranchesOfAny_meaning items h hw, meaning]
  | all [item], bs, h, hw, β, β' => by
    rw [presentBranches] at h
    rw [presentBranches_meaning item h (fun p hp => hw p (List.mem_append_left _ hp)), meaning,
      meaningOfAll]
    exact and_congr_right fun _ => not_congr ⟨fun hn => by simp [hn], fun hn => by
      simpa [meaningOfAll] using hn⟩
  | all [], bs, h, _, β, β' => by simp [presentBranches] at h
  | all (_ :: _ :: _), bs, h, _, β, β' => by simp [presentBranches] at h
  | absent item, bs, h, hw, β, β' => by
    rw [presentBranches] at h
    rw [absentBranches_meaning item h hw, meaning, ne_eq, Binding.passIf_eq_nil,
      Bool.not_eq_false, List.isEmpty_iff]
  | present item, bs, h, hw, β, β' => by
    rw [presentBranches] at h
    rw [presentBranches_meaning item h hw, meaning, ne_eq, ne_eq, Binding.passIf_eq_nil,
      Bool.not_eq_false', List.isEmpty_iff]
  | every base require, bs, h, _, β, β' => by
    cases h
    rw [allows_one, Element.meaning, Binding.mem_passIf, meaning, ne_eq, Binding.passIf_eq_nil,
      Bool.not_eq_false]
  | predicate p, bs, h, _, β, β' => by
    cases h
    rw [allows_one, Element.meaning, Binding.mem_passIf, meaning, ne_eq, Binding.passIf_eq_nil,
      Bool.not_eq_false]
  | accumulate _, bs, h, _, β, β' => by cases h

/-- The alternatives of the presence of any of the items. -/
theorem presentBranchesOfAny_meaning : ∀ (items : List Condition) {bs : Branches},
    presentBranchesOfAny items = .ok bs → Unbounded (negatedBasesOfAll false items) → ∀ β β',
    Allows scene bs β β' ↔ β' = β ∧ meaningOfAny scene items β ≠ []
  | [], bs, h, _, β, β' => by
    cases h
    simp [Allows, meaningOfAny]
  | item :: rest, bs, h, hw, β, β' => by
    obtain ⟨alternatives, halt, h⟩ := ok_of_bind h
    obtain ⟨others, hrest, h⟩ := ok_of_bind h
    cases h
    rw [allows_append, presentBranches_meaning item halt hw.append.1,
      presentBranchesOfAny_meaning rest hrest hw.append.2, meaningOfAny, ← and_or_left,
      ne_eq, ne_eq, ne_eq, List.append_eq_nil_iff, Decidable.not_and_iff_or_not]

end

end Condition

end RuleNet
