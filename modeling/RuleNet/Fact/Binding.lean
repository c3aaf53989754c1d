/-
  Bindings: what the variables of a match stand for.
-/
import RuleNet.Fact.Basic

namespace RuleNet

/-- The variables of one match, and every fact it rests on in the order of the patterns. -/
structure Binding where
  facts : Entries Handle
  values : Entries Value
  handles : List Handle
  deriving Inhabited, DecidableEq

namespace Binding

def empty : Binding := ⟨[], [], []⟩

/-- The fact a variable is bound to. -/
def handle? (binding : Binding) (name : String) : Option Handle := binding.facts.find? name

/-- The value a variable is bound to. -/
def value? (binding : Binding) (name : String) : Option Value := binding.values.find? name

/-- Whether the match rests on a fact. -/
def dependsOn (binding : Binding) (h : Handle) : Bool := binding.handles.contains h

end Binding

/-- One answer of a query: its variables, parameters included. -/
structure Row where
  facts : Entries Handle
  values : Entries Value
  deriving Inhabited, DecidableEq

namespace Row

/-- A row seen as a binding; its facts stand in the order of the variables. -/
def toBinding (row : Row) : Binding := ⟨row.facts, row.values, row.facts.map Prod.snd⟩

end Row

end RuleNet
