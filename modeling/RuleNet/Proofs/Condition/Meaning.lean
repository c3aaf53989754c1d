/-
  What conditions mean, read off their trees.

  A condition takes a partial binding to all bindings that extend it and meet the condition.

  * `Scene`: the facts in order of arrival, and the time.
  * `Pattern.members`, `Pattern.partners`: the facts that a pattern speaks of, and those of them
    that go with a binding.
  * `Condition.meaning`: the extensions that a condition allows.
  * `Element.meaning`, `Element.meaningOfAll`: those of one step of a branch, and of a branch.
-/
import RuleNet.Accumulator
import RuleNet.Network.Branch
import RuleNet.WorkingMemory

namespace RuleNet

/-- Facts in the order of their arrival, at one time. -/
structure Scene where
  facts : List (Handle × Entry)
  now : Moment

namespace Scene

/-- The fact under a handle. -/
def entry? (scene : Scene) (h : Handle) : Option Entry :=
  (scene.facts.find? fun fact => fact.1 == h).map Prod.snd

/-- The fact that a variable is bound to. -/
def factOf? (scene : Scene) (β : Binding) (name : String) : Option Entry :=
  (β.handle? name).bind scene.entry?

end Scene

/-! ## Constraints -/

/-- What an operand stands for; null if its variable is not bound. -/
def Operand.valueIn (scene : Scene) (β : Binding) : Operand → Value
  | .literal value => value
  | .var name => (β.value? name).getD .null
  | .field name part => match scene.factOf? β name with
    | some entry => entry.fact.value part
    | none => .null

namespace Constraint

mutual

/-- Whether a fact satisfies a constraint for a binding. -/
def met (scene : Scene) (β : Binding) (entry : Entry) : Constraint → Bool
  | compare field operator operand =>
    operator.apply (entry.fact.value field) (operand.valueIn scene β)
  | temporal relation name => match scene.factOf? β name with
    | some other => relation.holds entry.moment other.moment
    | none => false
  | all items => allMet scene β entry items
  | any items => anyMet scene β entry items
  | not item => !met scene β entry item

def allMet (scene : Scene) (β : Binding) (entry : Entry) : List Constraint → Bool
  | [] => true
  | item :: rest => met scene β entry item && allMet scene β entry rest

def anyMet (scene : Scene) (β : Binding) (entry : Entry) : List Constraint → Bool
  | [] => false
  | item :: rest => met scene β entry item || anyMet scene β entry rest

end

end Constraint

/-! ## Patterns -/

namespace Pattern

/-- The constraints that read nothing but the fact. -/
def constants (p : Pattern) : List Constraint := p.constraints.filter (·.isConstant)

/-- The constraints that read earlier variables. -/
def relations (p : Pattern) : List Constraint := p.constraints.filter fun c => !c.isConstant

/-- The facts of the pattern's type that satisfy its constant constraints, as far as its window
    still sees them. -/
def members (p : Pattern) (scene : Scene) : List (Handle × Entry) :=
  let admitted := scene.facts.filter fun fact =>
    fact.2.fact.type == p.type && Constraint.allMet scene .empty fact.2 p.constants
  match p.window with
  | none => admitted
  | some (.time length) => admitted.filter fun fact => length.covers fact.2.moment scene.now
  | some (.length capacity) => admitted.drop (admitted.length - capacity)

/-- The members that go with a binding. -/
def partners (p : Pattern) (scene : Scene) (β : Binding) : List (Handle × Entry) :=
  (p.members scene).filter fun fact => Constraint.allMet scene β fact.2 p.relations

/-- The binding with what the pattern binds of a fact. -/
def bind (p : Pattern) (β : Binding) (fact : Handle × Entry) : Binding where
  facts := match p.factVar with
    | some name => β.facts.insert name fact.1
    | none => β.facts
  values := p.fieldVars.foldl (fun (values : Entries Value) var =>
    values.insert var.1 (fact.2.fact.value var.2)) β.values
  handles := β.handles ++ [fact.1]

/-- The matching extensions of a binding. -/
def extensions (p : Pattern) (scene : Scene) (β : Binding) : List Binding :=
  (p.partners scene β).map (p.bind β)

end Pattern

/-- The binding with the folded value of all partners, if it is defined and meets the condition on
    it. -/
def Accumulate.extensions (a : Accumulate) (scene : Scene) (β : Binding) : List Binding :=
  let acc := Accumulator.ofList a.fold ((a.source.partners scene β).map fun fact =>
    (fact.1, match a.fold.field? with
      | some field => fact.2.fact.value field
      | none => .null))
  let result := acc.result?.filter fun value => match a.having with
    | some (operator, operand) => operator.apply value (operand.valueIn scene β)
    | none => true
  result.toList.map fun value => { β with values := β.values.insert a.result value }

/-! ## Conditions -/

/-- The binding itself, if it may pass. -/
def Binding.passIf (β : Binding) (pass : Bool) : List Binding := if pass then [β] else []

/-- The extensions of a binding by one step of a branch. -/
def Element.meaning (scene : Scene) (β : Binding) : Element → List Binding
  | .pattern p => p.extensions scene β
  | .absent p => β.passIf (p.extensions scene β).isEmpty
  | .present p => β.passIf !(p.extensions scene β).isEmpty
  | .every base require =>
    β.passIf ((base.partners scene β).all fun fact => Constraint.allMet scene β fact.2 require)
  | .accumulate a => a.extensions scene β
  | .predicate p => β.passIf (p.holds β)

/-- The extensions of a binding by the steps of a branch, one after the other. -/
def Element.meaningOfAll (scene : Scene) : List Element → Binding → List Binding
  | [], β => [β]
  | e :: rest, β => (e.meaning scene β).flatMap (meaningOfAll scene rest)

namespace Condition

mutual

/-- The extensions of a binding that meet a condition. -/
def meaning (scene : Scene) : Condition → Binding → List Binding
  | pattern p, β => p.extensions scene β
  | all items, β => meaningOfAll scene items β
  | any items, β => meaningOfAny scene items β
  | absent item, β => β.passIf (meaning scene item β).isEmpty
  | present item, β => β.passIf !(meaning scene item β).isEmpty
  | every base require, β =>
    β.passIf ((base.partners scene β).all fun fact => Constraint.allMet scene β fact.2 require)
  | accumulate a, β => a.extensions scene β
  | predicate p, β => β.passIf (p.holds β)

/-- The extensions by items one after the other. -/
def meaningOfAll (scene : Scene) : List Condition → Binding → List Binding
  | [], β => [β]
  | item :: rest, β => (meaning scene item β).flatMap (meaningOfAll scene rest)

/-- The extensions by any of the items. -/
def meaningOfAny (scene : Scene) : List Condition → Binding → List Binding
  | [], _ => []
  | item :: rest, β => meaning scene item β ++ meaningOfAny scene rest β

end

end Condition

/-! ## Small facts -/

section
variable {scene : Scene} {β β' : Binding}

@[simp] theorem Binding.mem_passIf {pass : Bool} : β' ∈ β.passIf pass ↔ β' = β ∧ pass = true := by
  cases pass <;> simp [passIf]

@[simp] theorem Binding.passIf_eq_nil {pass : Bool} : β.passIf pass = [] ↔ pass = false := by
  cases pass <;> simp [passIf]

theorem Element.meaningOfAll_append (before after : List Element) :
    meaningOfAll scene (before ++ after) β =
      (meaningOfAll scene before β).flatMap (meaningOfAll scene after) := by
  induction before generalizing β with
  | nil => simp [meaningOfAll]
  | cons e rest ih =>
    rw [List.cons_append, meaningOfAll, meaningOfAll, List.flatMap_assoc]
    exact congrArg (List.flatMap · _) (funext fun _ => ih)

@[simp] theorem Element.meaningOfAll_one (e : Element) :
    meaningOfAll scene [e] β = e.meaning scene β := by
  simp [meaningOfAll]

theorem Constraint.allMet_append {entry : Entry} (cs ds : List Constraint) :
    allMet scene β entry (cs ++ ds) = (allMet scene β entry cs && allMet scene β entry ds) := by
  induction cs with
  | nil => simp [allMet]
  | cons c rest ih => simp [allMet, ih, Bool.and_assoc]

end

end RuleNet
