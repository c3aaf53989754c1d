/-
  Operators of constraints: how a field value relates to an operand. Operands that do not fit an
  operator never satisfy it.
-/
import RuleNet.Value.Equality
import RuleNet.Value.Order

namespace RuleNet

/-- A relation between two values. -/
inductive Operator where
  | equal
  | notEqual
  | greater
  | less
  | greaterOrEqual
  | lessOrEqual
  | contains
  | notContains
  | startsWith
  | endsWith
  | memberOf
  deriving DecidableEq, Inhabited

namespace Operator

/-- Every operator, in order of declaration. -/
def all : List Operator :=
  [equal, notEqual, greater, less, greaterOrEqual, lessOrEqual, contains, notContains, startsWith,
    endsWith, memberOf]

/-- How messages write an operator. -/
def symbol : Operator → String
  | equal => "=="
  | notEqual => "!="
  | greater => ">"
  | less => "<"
  | greaterOrEqual => ">="
  | lessOrEqual => "<="
  | contains => "contains"
  | notContains => "not contains"
  | startsWith => "starts with"
  | endsWith => "ends with"
  | memberOf => "memberOf"

/-- Whether `part` stands somewhere in `whole`. -/
def isWithin (part : List Char) : List Char → Bool
  | [] => part.isEmpty
  | c :: rest => part.isPrefixOf (c :: rest) || isWithin part rest

/-- Whether a string contains a string, or an array an item; undefined for anything else. -/
def contains? : Value → Value → Option Bool
  | .text s, .text t => some (isWithin t.toList s.toList)
  | .array items, v => some (items.any fun item => item.looseEq v)
  | _, _ => none

/-- Whether the relation holds between a field value and an operand. -/
def apply : Operator → Value → Value → Bool
  | equal, v, w => v.looseEq w
  | notEqual, v, w => !v.looseEq w
  | greater, v, w => v.partialCompare w == some .gt
  | less, v, w => v.partialCompare w == some .lt
  | greaterOrEqual, v, w => v.partialCompare w == some .gt || v.partialCompare w == some .eq
  | lessOrEqual, v, w => v.partialCompare w == some .lt || v.partialCompare w == some .eq
  | contains, v, w => (contains? v w).getD false
  | notContains, v, w => ((contains? v w).map (!·)).getD false
  | startsWith, .text s, .text t => t.toList.isPrefixOf s.toList
  | startsWith, _, _ => false
  | endsWith, .text s, .text t => t.toList.isSuffixOf s.toList
  | endsWith, _, _ => false
  | memberOf, v, w => (contains? w v).getD false

end Operator

end RuleNet
