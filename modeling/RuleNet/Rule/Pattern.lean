/-
  Patterns: which facts a condition speaks of, and what it binds of them.

  * `Constraint.readVars`: the variables a constraint reads; a constant one reads none.
  * `Fold`: the functions that fold all matching facts into one value.
-/
import RuleNet.Rule.Operator
import RuleNet.Rule.Temporal

namespace RuleNet

/-- The right-hand side of a comparison. -/
inductive Operand where
  | literal (value : Value)
  /-- A value variable. -/
  | var (name : String)
  /-- A field of the fact that a fact variable is bound to. -/
  | field (name : String) (field : String)
  deriving DecidableEq, Inhabited

/-- The variable an operand reads. -/
def Operand.var? : Operand → Option String
  | literal _ => none
  | var name => some name
  | field name _ => some name

/-- A test of one fact. -/
inductive Constraint where
  | compare (field : String) (operator : Operator) (operand : Operand)
  /-- A relation between this event and the one bound to a variable. -/
  | temporal (relation : TemporalRelation) (name : String)
  | all (items : List Constraint)
  | any (items : List Constraint)
  | not (item : Constraint)
  deriving Inhabited

namespace Constraint

mutual

/-- The variables a constraint reads, in order. -/
def readVars : Constraint → List String
  | compare _ _ operand => operand.var?.toList
  | temporal _ name => [name]
  | all items => readVarsOfAll items
  | any items => readVarsOfAll items
  | not item => readVars item

def readVarsOfAll : List Constraint → List String
  | [] => []
  | item :: rest => readVars item ++ readVarsOfAll rest

end

/-- A constant constraint reads nothing but the fact. -/
def isConstant (c : Constraint) : Bool := c.readVars.isEmpty

mutual

/-- Whether two constraints are written the same. -/
def identical : Constraint → Constraint → Bool
  | compare f o v, compare g p w => decide (f = g ∧ o = p ∧ v = w)
  | temporal r x, temporal s y => decide (r = s ∧ x = y)
  | all xs, all ys => identicalItems xs ys
  | any xs, any ys => identicalItems xs ys
  | not x, not y => identical x y
  | _, _ => false

def identicalItems : List Constraint → List Constraint → Bool
  | [], [] => true
  | x :: xs, y :: ys => identical x y && identicalItems xs ys
  | _, _ => false

end

mutual

theorem identical_iff : ∀ x y : Constraint, x.identical y = true ↔ x = y
  | compare _ _ _, y => by cases y <;> simp [identical]
  | temporal _ _, y => by cases y <;> simp [identical]
  | all xs, y => by cases y <;> simp [identical, identicalItems_iff xs]
  | any xs, y => by cases y <;> simp [identical, identicalItems_iff xs]
  | not x, y => by cases y <;> simp [identical, identical_iff x]

theorem identicalItems_iff : ∀ xs ys : List Constraint, identicalItems xs ys = true ↔ xs = ys
  | [], ys => by cases ys <;> simp [identicalItems]
  | x :: xs, ys => by
    cases ys <;> simp [identicalItems, identical_iff x, identicalItems_iff xs]

end

instance : DecidableEq Constraint := fun x y => decidable_of_iff _ (identical_iff x y)

end Constraint

/-- The facts of one type that satisfy constraints, within a window. -/
structure Pattern where
  type : String
  /-- The variable bound to the fact. -/
  factVar : Option String
  constraints : List Constraint
  /-- Variables bound to fields, each with its field. -/
  fieldVars : List (String × String)
  window : Option Window
  deriving Inhabited, DecidableEq

/-- A pattern binds nothing if it names neither the fact nor a field. -/
def Pattern.bindsNothing (pattern : Pattern) : Bool :=
  pattern.factVar.isNone && pattern.fieldVars.isEmpty

/-- A function of all matching facts, most of them of one field. -/
inductive Fold where
  | count
  | sum (field : String)
  | average (field : String)
  | least (field : String)
  | greatest (field : String)
  | distinct (field : String)
  | list (field : String)
  deriving DecidableEq, Inhabited

namespace Fold

def field? : Fold → Option String
  | count => none
  | sum field | average field | least field | greatest field | distinct field | list field =>
    some field

def name : Fold → String
  | count => "count"
  | sum _ => "sum"
  | average _ => "average"
  | least _ => "min"
  | greatest _ => "max"
  | distinct _ => "collect_set"
  | list _ => "collect_list"

/-- The function of a name; one that needs no field passes over it. -/
def ofName? (name field : String) : Option Fold :=
  [count, sum field, average field, least field, greatest field, distinct field, list field].find?
    (·.name == name)

/-- Whether the function makes sense for numbers only. -/
def needsNumbers : Fold → Bool
  | sum _ | average _ => true
  | _ => false

end Fold

/-- A fold of the facts that match a pattern, bound to a variable. -/
structure Accumulate where
  source : Pattern
  fold : Fold
  result : String
  /-- What must hold of the result for the match to go on. -/
  having : Option (Operator × Operand)
  deriving Inhabited

end RuleNet
