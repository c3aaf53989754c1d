/-
  Branches: conditions as alternatives of flat sequences.

  A condition is met if, for one of its branches, all elements are met one after the other.

  * `Condition.branches`: the alternatives of a condition; `absentBranches` and `presentBranches`
    are those of its absence and of its presence, which must come down to single patterns.
  * `Condition.normalize`: the branches, unless there are too many.
-/
import RuleNet.Rule.Condition
import RuleNet.Rule.Defect

namespace RuleNet

/-- One step of a branch. -/
inductive Element where
  | pattern (p : Pattern)
  | absent (p : Pattern)
  | present (p : Pattern)
  | every (base : Pattern) (require : List Constraint)
  | accumulate (a : Accumulate)
  | predicate (p : Predicate)

/-- Alternatives, each a sequence of elements. -/
abbrev Branches := List (List Element)

/-- The facts of a pattern that violate one of the requirements. -/
def Pattern.violating (base : Pattern) (require : List Constraint) : Pattern :=
  { base with constraints := base.constraints ++ [.not (.all require)] }

/-- Every branch of the one followed by every branch of the other, within the limit. -/
def Branches.product (left right : Branches) : Except Defect Branches :=
  let both := left.flatMap fun l => right.map fun r => l ++ r
  if maxBranches < both.length then .error .endlessBranches else .ok both

namespace Condition

mutual

/-- The alternatives of a condition. -/
def branches : Condition → Except Defect Branches
  | pattern p => .ok [[.pattern p]]
  | all items => branchesOfAll [[]] items
  | any items => if items.isEmpty then .error .emptyDisjunction else branchesOfAny items
  | absent item => absentBranches item
  | present item => presentBranches item
  | every base require => .ok [[.every base require]]
  | accumulate a => .ok [[.accumulate a]]
  | predicate p => .ok [[.predicate p]]

/-- The alternatives of items in sequence, after those of what comes before. -/
def branchesOfAll (before : Branches) : List Condition → Except Defect Branches
  | [] => .ok before
  | item :: rest => do
    let alternatives ← branches item
    let next ← before.product alternatives
    branchesOfAll next rest

/-- The alternatives of any of the items. -/
def branchesOfAny : List Condition → Except Defect Branches
  | [] => .ok []
  | item :: rest => do
    let alternatives ← branches item
    let others ← branchesOfAny rest
    .ok (alternatives ++ others)

/-- The alternatives of the absence of a condition. -/
def absentBranches : Condition → Except Defect Branches
  | pattern p => .ok [[.absent p]]
  | any items => absentBranchesOfAll [[]] items
  | all [item] => absentBranches item
  | all _ => .error .wideAbsence
  | absent item => presentBranches item
  | present item => absentBranches item
  | every base require => .ok [[.present (base.violating require)]]
  | predicate p => .ok [[.predicate p.negate]]
  | accumulate _ => .error .wideAbsence

/-- The alternatives of the absence of all items. -/
def absentBranchesOfAll (before : Branches) : List Condition → Except Defect Branches
  | [] => .ok before
  | item :: rest => do
    let alternatives ← absentBranches item
    let next ← before.product alternatives
    absentBranchesOfAll next rest

/-- The alternatives of the presence of a condition. -/
def presentBranches : Condition → Except Defect Branches
  | pattern p => .ok [[.present p]]
  | any items => presentBranchesOfAny items
  | all [item] => presentBranches item
  | all _ => .error .widePresence
  | absent item => absentBranches item
  | present item => presentBranches item
  | every base require => .ok [[.every base require]]
  | predicate p => .ok [[.predicate p]]
  | accumulate _ => .error .widePresence

/-- The alternatives of the presence of any of the items. -/
def presentBranchesOfAny : List Condition → Except Defect Branches
  | [] => .ok []
  | item :: rest => do
    let alternatives ← presentBranches item
    let others ← presentBranchesOfAny rest
    .ok (alternatives ++ others)

end

/-- The branches of a condition, at most `maxBranches`. -/
def normalize (c : Condition) : Except Defect Branches := do
  let alternatives ← c.branches
  if maxBranches < alternatives.length then .error (.tooManyBranches alternatives.length)
  else .ok alternatives

end Condition

end RuleNet
