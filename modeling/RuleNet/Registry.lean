/-
  Registries: the rule base that new sessions start from, which can be replaced while sessions run.
-/
import RuleNet.RuleBase

namespace RuleNet

/-- The current rule base, and how often it was replaced. -/
structure Registry where
  current : RuleBase
  reloads : Nat

namespace Registry

def start (base : RuleBase) : Registry := ⟨base, 0⟩

/-- Replace the rule base by a new one; if that does not compile, the current one stays. -/
def reload (registry : Registry) (declarations : Declarations) :
    Except EngineError RuleBase × Registry :=
  match declarations.build with
  | .ok base => (.ok base, ⟨base, registry.reloads + 1⟩)
  | .error e => (.error e, registry)

end Registry

end RuleNet
