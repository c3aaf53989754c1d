/-
  Conditions: the trees that rules and queries are written as.
-/
import RuleNet.Fact.Binding
import RuleNet.Rule.Pattern

namespace RuleNet

/-- A named predicate over the variables bound so far. Predicates cannot be compared, so each one
    carries a mark; two predicates of one mark and one sense are the same. -/
structure Predicate where
  name : String
  mark : Nat
  negated : Bool
  holds : Binding → Bool

namespace Predicate

/-- The predicate that holds exactly where this one does not. -/
def negate (p : Predicate) : Predicate :=
  ⟨"not " ++ p.name, p.mark, !p.negated, fun binding => !p.holds binding⟩

/-- Whether two predicates are the same one under the same name. -/
def same (p q : Predicate) : Bool := p.name == q.name && p.mark == q.mark && p.negated == q.negated

end Predicate

/-- A condition on the facts of a session. -/
inductive Condition where
  | pattern (p : Pattern)
  | all (items : List Condition)
  | any (items : List Condition)
  | absent (item : Condition)
  | present (item : Condition)
  /-- Every fact that matches `base` satisfies `require`. -/
  | every (base : Pattern) (require : List Constraint)
  | accumulate (a : Accumulate)
  | predicate (p : Predicate)

end RuleNet
