/-
  The same constraints, resolved by names and by depths.

  * `Test.map`, `View.through`: tests with their places renamed, and views seen through the renaming.
  * `Scope.Regular`: the scope of a branch without parameters.
  * `Scope.refersTo`: where what a reference names lives.
  * `Scope.tests_byDepth`: resolving by depth is resolving by name and renaming.
  * `Scope.tests_constant`: constant constraints resolve alike in all scopes.
-/
import RuleNet.Proofs.Data.Entries
import RuleNet.Proofs.Network.Build
import RuleNet.Query.Plan

namespace RuleNet

/-! ## Renaming -/

section
variable {ρ σ : Type}

def TestOperand.map (f : ρ → σ) : TestOperand ρ → TestOperand σ
  | literal value => literal value
  | place p => place (f p)

namespace Test

mutual

/-- The test with its places renamed. -/
def map (f : ρ → σ) : Test ρ → Test σ
  | compare field operator operand => compare field operator (operand.map f)
  | temporal relation other => temporal relation (f other)
  | all items => all (mapItems f items)
  | any items => any (mapItems f items)
  | not item => not (map f item)

def mapItems (f : ρ → σ) : List (Test ρ) → List (Test σ)
  | [] => []
  | item :: rest => map f item :: mapItems f rest

end

theorem mapItems_append (f : ρ → σ) (items others : List (Test ρ)) :
    mapItems f (items ++ others) = mapItems f items ++ mapItems f others := by
  induction items with
  | nil => rfl
  | cons item rest ih => rw [List.cons_append, mapItems, mapItems, ih, List.cons_append]

theorem equalityPlace?_map (f : ρ → σ) (test : Test ρ) :
    (test.map f).equalityPlace? = test.equalityPlace?.map fun found => (found.1, f found.2) := by
  cases test with
  | compare field operator operand =>
    cases operand <;> cases operator <;> rfl
  | temporal relation other => rfl
  | all items => rfl
  | any items => rfl
  | not item => rfl

theorem head?_equalityPlace?_map (f : ρ → σ) (tests : List (Test ρ)) :
    ((mapItems f tests).filterMap equalityPlace?).head? =
      ((tests.filterMap equalityPlace?).head?).map fun found => (found.1, f found.2) := by
  induction tests with
  | nil => rfl
  | cons test rest ih =>
    rw [mapItems, List.filterMap_cons, List.filterMap_cons, equalityPlace?_map]
    cases test.equalityPlace? with
    | none => exact ih
    | some found => rfl

end Test

/-- A view seen through a renaming. -/
def View.through (f : ρ → σ) (view : View σ) : View ρ :=
  ⟨fun p => view.value (f p), fun p => view.moment (f p)⟩

theorem TestOperand.resolve_map (f : ρ → σ) (view : View σ) (operand : TestOperand ρ) :
    (operand.map f).resolve view = operand.resolve (view.through f) := by
  cases operand <;> rfl

namespace Test

mutual

/-- A renamed test says of a view what the test says of the view seen through the renaming. -/
theorem holds_map (f : ρ → σ) (view : View σ) (fact : Fact) (moment : Moment) :
    ∀ test : Test ρ, holds view fact moment (test.map f) =
      holds (view.through f) fact moment test
  | compare field operator operand => by rw [map, holds, holds, TestOperand.resolve_map]
  | temporal relation other => by rw [map, holds, holds]; rfl
  | all items => by rw [map, holds, holds, allHold_map f view fact moment items]
  | any items => by rw [map, holds, holds, anyHolds_map f view fact moment items]
  | not item => by rw [map, holds, holds, holds_map f view fact moment item]

theorem allHold_map (f : ρ → σ) (view : View σ) (fact : Fact) (moment : Moment) :
    ∀ items : List (Test ρ), allHold view fact moment (mapItems f items) =
      allHold (view.through f) fact moment items
  | [] => by rw [mapItems, allHold, allHold]
  | item :: rest => by
    rw [mapItems, allHold, allHold, holds_map f view fact moment item,
      allHold_map f view fact moment rest]

theorem anyHolds_map (f : ρ → σ) (view : View σ) (fact : Fact) (moment : Moment) :
    ∀ items : List (Test ρ), anyHolds view fact moment (mapItems f items) =
      anyHolds (view.through f) fact moment items
  | [] => by rw [mapItems, anyHolds, anyHolds]
  | item :: rest => by
    rw [mapItems, anyHolds, anyHolds, holds_map f view fact moment item,
      anyHolds_map f view fact moment rest]

end

end Test

end

/-! ## Scopes -/

/-- Whether a variable lives in a chain, no deeper than a depth. -/
def Declared.Within (depth : Nat) : Declared → Prop
  | .fact d _ => d ≤ depth
  | .field d _ => d ≤ depth
  | .result d => d ≤ depth
  | .parameter => False

theorem Declared.Within.mono {depth depth' : Nat} (hle : depth ≤ depth') {declared : Declared}
    (h : declared.Within depth) : declared.Within depth' := by
  cases declared with
  | fact d type => exact Nat.le_trans h hle
  | field d field => exact Nat.le_trans h hle
  | result d => exact Nat.le_trans h hle
  | parameter => exact h

namespace Scope

/-- The scope of a branch without parameters, after some steps. -/
structure Regular (scope : Scope) (depth : Nat) : Prop where
  ordered : Entries.Ordered scope
  within : ∀ {name declared}, Entries.find? name scope = some declared → declared.Within depth

theorem regular_nil (depth : Nat) : Regular [] depth := ⟨List.Pairwise.nil, fun h => by cases h⟩

theorem Regular.mono {scope : Scope} {depth depth' : Nat} (h : scope.Regular depth)
    (hle : depth ≤ depth') : scope.Regular depth' := ⟨h.ordered, fun hf => (h.within hf).mono hle⟩

/-- A variable is declared. -/
theorem declare_eq {scope scope' : Scope} {name : String} {declared : Declared}
    (h : scope.declare name declared = .ok scope') :
    Entries.find? name scope = none ∧ scope' = Entries.insert name declared scope := by
  unfold declare at h
  split at h
  · cases h
  · next hnew =>
    cases h
    refine ⟨?_, rfl⟩
    rw [Entries.contains] at hnew
    cases hf : Entries.find? name scope with
    | none => rfl
    | some d => rw [hf] at hnew; exact absurd rfl hnew

theorem Regular.declare {scope scope' : Scope} {depth : Nat} (h : scope.Regular depth)
    {name : String} {declared : Declared} (hd : declared.Within depth)
    (hs : scope.declare name declared = .ok scope') : scope'.Regular depth := by
  obtain ⟨-, rfl⟩ := declare_eq hs
  refine ⟨Entries.ordered_insert _ _ h.ordered, fun {name' declared'} hf => ?_⟩
  rw [Entries.find?_insert] at hf
  split at hf
  · cases hf
    exact hd
  · exact h.within hf

/-- Where what a reference names lives; what is not bound lives nowhere. -/
def refersTo (scope : Scope) : Reference → Place
  | .value name => match Entries.find? name scope with
    | some (.field depth field) => .field depth field
    | some (.result depth) => .result depth
    | _ => .fact 0
  | .field name field => match Entries.find? name scope with
    | some (.fact depth _) => .field depth field
    | _ => .fact 0
  | .fact name => match Entries.find? name scope with
    | some (.fact depth _) => .fact depth
    | _ => .fact 0

section
variable {scope : Scope} {depth : Nat} (R : scope.Regular depth) (types : Types)
include R

/-- An operand by depth is the one by name, renamed. -/
theorem operand_byDepth (operand : Operand) : scope.operand .byDepth types operand =
    (scope.operand .byName types operand).map (TestOperand.map scope.refersTo) := by
  cases operand with
  | literal value => rfl
  | var name =>
    simp only [Scope.operand, lookUp, bind, Except.bind]
    cases hf : Entries.find? name scope with
    | none => rfl
    | some declared =>
      cases declared with
      | fact d type => rfl
      | field d field =>
        simp only [Addressing.byDepth, Addressing.byName, Except.map, TestOperand.map, refersTo, hf]
      | result d =>
        simp only [Addressing.byDepth, Addressing.byName, Except.map, TestOperand.map, refersTo, hf]
      | parameter => exact (R.within hf).elim
  | field name field =>
    simp only [Scope.operand, lookUp, bind, Except.bind]
    cases hf : Entries.find? name scope with
    | none => rfl
    | some declared =>
      cases declared with
      | fact d type =>
        dsimp only
        cases Entries.find? type types with
        | none => rfl
        | some declared =>
          dsimp only
          split
          · simp only [Addressing.byDepth, Addressing.byName, Except.map, TestOperand.map, refersTo,
              hf]
          · rfl
      | field d field => rfl
      | result d => rfl
      | parameter => rfl

end

section
variable {scope : Scope} {depth : Nat}

mutual

/-- A constraint by depth is the one by name, renamed. -/
theorem test_byDepth (R : scope.Regular depth) (types : Types) (type : FactType) :
    ∀ c : Constraint, scope.test .byDepth types type c =
      (scope.test .byName types type c).map (Test.map scope.refersTo)
  | .compare field operator operand => by
    rw [test, test]
    split
    · rw [operand_byDepth R]
      cases scope.operand .byName types operand <;> rfl
    · rfl
  | .temporal relation name => by
    rw [test, test]
    split
    · simp only [lookUp, bind, Except.bind]
      cases hf : Entries.find? name scope with
      | none => rfl
      | some declared =>
        cases declared with
        | fact d target =>
          dsimp only
          split
          · simp only [Addressing.byDepth, Addressing.byName, Except.map, Test.map, refersTo, hf]
          · rfl
        | field d field => rfl
        | result d => rfl
        | parameter => rfl
    · rfl
  | .all items => by
    rw [test, test, tests_byDepth R types type items]
    cases scope.tests .byName types type items <;> rfl
  | .any items => by
    rw [test, test, tests_byDepth R types type items]
    cases scope.tests .byName types type items <;> rfl
  | .not item => by
    rw [test, test, test_byDepth R types type item]
    cases scope.test .byName types type item <;> rfl

theorem tests_byDepth (R : scope.Regular depth) (types : Types) (type : FactType) :
    ∀ items : List Constraint, scope.tests .byDepth types type items =
      (scope.tests .byName types type items).map (Test.mapItems scope.refersTo)
  | [] => by rw [tests, tests]; rfl
  | item :: rest => by
    rw [tests, tests, test_byDepth R types type item, tests_byDepth R types type rest]
    cases scope.test .byName types type item with
    | error d => rfl
    | ok t => cases scope.tests .byName types type rest <;> rfl

end

end

/-! ## Constant constraints -/

section
variable {ρ : Type} (address : Addressing ρ) (types : Types) (scope scope' : Scope)

mutual

/-- A constant constraint resolves alike in all scopes. -/
theorem test_constant (type : FactType) : ∀ c : Constraint, c.readVars = [] →
    scope.test address types type c = scope'.test address types type c
  | .compare field operator operand, h => by
    cases operand with
    | literal value => rw [test, test]; rfl
    | var name => cases h
    | field name part => cases h
  | .temporal relation name, h => by cases h
  | .all items, h => by rw [test, test, tests_constant type items h]
  | .any items, h => by rw [test, test, tests_constant type items h]
  | .not item, h => by rw [test, test, test_constant type item h]

theorem tests_constant (type : FactType) : ∀ items : List Constraint,
    Constraint.readVarsOfAll items = [] →
    scope.tests address types type items = scope'.tests address types type items
  | [], _ => by rw [tests, tests]
  | item :: rest, h => by
    obtain ⟨h₁, h₂⟩ := List.append_eq_nil_iff.1 h
    rw [tests, tests, test_constant type item h₁, tests_constant type rest h₂]

end

end

end Scope

end RuleNet
