/-
  Rule bases: declarations compiled as a whole.

  * `Declarations.problems`: everything that is wrong, types first, then rules, then queries.
  * `Declarations.build`: the rule base, if nothing is wrong.
-/
import RuleNet.Query.Plan
import RuleNet.Text.Blank

namespace RuleNet

/-- Fact types, rules and queries, in order of declaration. -/
structure Declarations where
  types : List FactType
  rules : List Rule
  queries : List Query

/-- Compiled declarations, shared by sessions. -/
structure RuleBase where
  types : Types
  rules : List Rule
  queries : Entries Plan
  network : Network

namespace RuleBase

def type? (base : RuleBase) (name : String) : Option FactType := base.types.find? name

/-- The first rule of a name. -/
def rule? (base : RuleBase) (name : String) : Option Rule := base.rules.find? (·.name == name)

def query? (base : RuleBase) (name : String) : Option Plan := base.queries.find? name

/-- The names of the queries in order. -/
def queryNames (base : RuleBase) : List String := base.queries.names

end RuleBase

/-! ## Building -/

/-- What has been compiled, and what was wrong with the rest. -/
structure Assembly where
  types : Types
  ruleNames : List String
  network : Network
  queries : Entries Plan
  problems : List Problem

namespace Assembly

def empty : Assembly := ⟨[], [], .empty, [], []⟩

def report (a : Assembly) (owner : String) (defects : List Defect) : Assembly :=
  { a with problems := a.problems ++ defects.map fun defect => ⟨owner, defect⟩ }

/-- Declare a type; the first declaration of a name stands. -/
def addType (a : Assembly) (type : FactType) : Assembly :=
  if a.types.contains type.name then a.report type.name [.repeatedType]
  else { a with types := a.types.insert type.name type }

/-- What is wrong with the name and the group of a rule. -/
def labelDefects (a : Assembly) (rule : Rule) : List Defect :=
  let nameDefects :=
    if trimBlanks rule.name = "" then [Defect.emptyName]
    else if a.ruleNames.contains rule.name then [.repeatedRule] else []
  nameDefects ++ if trimBlanks rule.group = "" then [.emptyGroup] else []

/-- Add the rule at a place among the rules. -/
def addRule (a : Assembly) (rule : Rule) (place : Nat) : Assembly :=
  let labelled := { a.report rule.name (a.labelDefects rule) with
    ruleNames := rule.name :: a.ruleNames }
  match labelled.network.addRule labelled.types place rule.condition with
  | .ok network => { labelled with network }
  | .error defect => labelled.report rule.name [defect]

/-- Add a query; the first one of a name that compiles stands. -/
def addQuery (a : Assembly) (query : Query) : Assembly :=
  if a.queries.contains query.name then a.report query.name [.repeatedQuery]
  else match Plan.compile a.types a.network query with
    | .ok (plan, network) => { a with network, queries := a.queries.insert query.name plan }
    | .error defect => a.report query.name [defect]

end Assembly

namespace Declarations

/-- Compile what can be compiled. -/
def assemble (declarations : Declarations) : Assembly :=
  let types := declarations.types.foldl Assembly.addType .empty
  let rules := declarations.rules.zipIdx.foldl (fun a rule => a.addRule rule.1 rule.2) types
  declarations.queries.foldl Assembly.addQuery rules

/-- Everything that is wrong, in order. -/
def problems (declarations : Declarations) : List Problem := declarations.assemble.problems

/-- The rule base, or everything that is wrong. -/
def build (declarations : Declarations) : Except EngineError RuleBase :=
  let assembly := declarations.assemble
  if assembly.problems.isEmpty then
    .ok ⟨assembly.types, declarations.rules, assembly.queries, assembly.network.finish⟩
  else .error (.rejected assembly.problems)

end Declarations

end RuleNet
