/-
  Rules and queries as they are declared.
-/
import RuleNet.Rule.Action
import RuleNet.Rule.Condition

namespace RuleNet

/-- The agenda group of every rule that names no other. -/
def mainGroup : String := "MAIN"

/-- A condition, what to do for each of its matches, and how the matches compete. -/
structure Rule where
  name : String
  /-- Of competing matches the ones of higher salience fire first. -/
  salience : Int
  group : String
  /-- The rule's own action makes no new activations of the rule. -/
  noLoop : Bool
  /-- No new activations while the rule's group is firing. -/
  lockOnActive : Bool
  /-- A new activation moves the focus to the rule's group. -/
  autoFocus : Bool
  condition : Condition
  action : Firing → Action

/-- A named condition with parameters, asked for its rows. -/
structure Query where
  name : String
  /-- Value variables that are bound before matching. -/
  parameters : List String
  condition : Condition

end RuleNet
