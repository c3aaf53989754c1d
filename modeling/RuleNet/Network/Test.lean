/-
  Tests: constraints whose variables have been resolved to places.

  * `Place`: where a variable lives in a chain of matched facts, by depth.
  * `Test.holds`: whether a fact passes a test, given what the places hold.
  * `Test.equalityPlace?`, `Test.equalityLiteral?`: the tests that a look-up by key can stand for.
-/
import RuleNet.Fact.Basic
import RuleNet.Rule.Pattern

namespace RuleNet

/-- Where a variable lives in a chain of matches. -/
inductive Place where
  /-- The fact matched at a depth. -/
  | fact (depth : Nat)
  /-- A field of the fact matched at a depth. -/
  | field (depth : Nat) (name : String)
  /-- The result folded at a depth. -/
  | result (depth : Nat)
  deriving DecidableEq, Inhabited

/-- The right-hand side of a comparison, its variable resolved. -/
inductive TestOperand (ρ : Type) where
  | literal (value : Value)
  | place (place : ρ)
  deriving DecidableEq

/-- A constraint with its variables resolved. -/
inductive Test (ρ : Type) where
  | compare (field : String) (operator : Operator) (operand : TestOperand ρ)
  | temporal (relation : TemporalRelation) (other : ρ)
  | all (items : List (Test ρ))
  | any (items : List (Test ρ))
  | not (item : Test ρ)

/-- What places hold while a test runs. -/
structure View (ρ : Type) where
  value : ρ → Value
  moment : ρ → Option Moment

/-- The view of tests that read no place. -/
def View.blank {ρ : Type} : View ρ := ⟨fun _ => .null, fun _ => none⟩

def TestOperand.resolve {ρ : Type} (view : View ρ) : TestOperand ρ → Value
  | literal value => value
  | place p => view.value p

namespace Test

variable {ρ : Type}

/-! ## Identity -/

section
variable [DecidableEq ρ]

mutual

/-- Whether two tests are written the same. -/
def identical : Test ρ → Test ρ → Bool
  | compare f o v, compare g p w => decide (f = g ∧ o = p ∧ v = w)
  | temporal r x, temporal s y => decide (r = s ∧ x = y)
  | all xs, all ys => identicalItems xs ys
  | any xs, any ys => identicalItems xs ys
  | not x, not y => identical x y
  | _, _ => false

def identicalItems : List (Test ρ) → List (Test ρ) → Bool
  | [], [] => true
  | x :: xs, y :: ys => identical x y && identicalItems xs ys
  | _, _ => false

end

mutual

theorem identical_iff : ∀ x y : Test ρ, x.identical y = true ↔ x = y
  | compare _ _ _, y => by cases y <;> simp [identical]
  | temporal _ _, y => by cases y <;> simp [identical]
  | all xs, y => by cases y <;> simp [identical, identicalItems_iff xs]
  | any xs, y => by cases y <;> simp [identical, identicalItems_iff xs]
  | not x, y => by cases y <;> simp [identical, identical_iff x]

theorem identicalItems_iff : ∀ xs ys : List (Test ρ), identicalItems xs ys = true ↔ xs = ys
  | [], ys => by cases ys <;> simp [identicalItems]
  | x :: xs, ys => by
    cases ys <;> simp [identicalItems, identical_iff x, identicalItems_iff xs]

end

instance : DecidableEq (Test ρ) := fun x y => decidable_of_iff _ (identical_iff x y)

end

/-! ## Meaning -/

mutual

/-- Whether a fact that happened at `moment` passes a test. -/
def holds (view : View ρ) (fact : Fact) (moment : Moment) : Test ρ → Bool
  | compare field operator operand => operator.apply (fact.value field) (operand.resolve view)
  | temporal relation other => match view.moment other with
    | some o => relation.holds moment o
    | none => false
  | all items => allHold view fact moment items
  | any items => anyHolds view fact moment items
  | not item => !holds view fact moment item

def allHold (view : View ρ) (fact : Fact) (moment : Moment) : List (Test ρ) → Bool
  | [] => true
  | item :: rest => holds view fact moment item && allHold view fact moment rest

def anyHolds (view : View ρ) (fact : Fact) (moment : Moment) : List (Test ρ) → Bool
  | [] => false
  | item :: rest => holds view fact moment item || anyHolds view fact moment rest

end

/-! ## Keys -/

/-- The field and the place of a test `field == place`. -/
def equalityPlace? : Test ρ → Option (String × ρ)
  | compare field .equal (.place p) => some (field, p)
  | _ => none

/-- The field and the value of a test `field == literal`. -/
def equalityLiteral? : Test ρ → Option (String × Value)
  | compare field .equal (.literal value) => some (field, value)
  | _ => none

end Test

end RuleNet
