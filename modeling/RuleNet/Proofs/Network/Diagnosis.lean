/-
  What is reported of a rule base.

  * `Rule.defect?`, `Query.defect?`: what is wrong with a condition that is compiled on its own. In
    every network, at every place, it is the same.
  * `inTurn`: what is reported of declarations, each in the light of the earlier ones.
  * `Declarations.assembleInPlace`: everything compiled in place, into one network.
  * `Declarations.diagnosis`: what is reported, and that nothing is built unless nothing is reported.
-/
import RuleNet.Proofs.Data.Entries
import RuleNet.Proofs.Network.InPlace

namespace RuleNet

open Compiling

/-! ## Defects of conditions -/

section
variable {α β : Type}

/-- What is wrong with something that should have been compiled. -/
def defect? : Except Defect α → Option Defect
  | .ok _ => none
  | .error defect => some defect

theorem defect?_eq_none {x : Except Defect α} : defect? x = none ↔ ∃ a, x = .ok a := by
  cases x <;> simp [defect?]

theorem defect?_eq_some {x : Except Defect α} {defect : Defect} :
    defect? x = some defect ↔ x = .error defect := by
  cases x <;> simp [defect?]

theorem defect?_map (f : α → β) (x : Except Defect α) : defect? (x.map f) = defect? x := by
  cases x <;> rfl

theorem defect?_bind_pure (f : α → β) (x : Except Defect α) :
    defect? (x >>= fun a => .ok (f a)) = defect? x := by
  cases x <;> rfl

end

/-- The first defect of a condition: of its expansion into branches, or of the first branch that has
    one. -/
def Condition.defect? (branchDefect? : List Element → Option Defect) (condition : Condition) :
    Option Defect := match condition.normalize with
  | .ok branches => branches.findSome? branchDefect?
  | .error defect => some defect

theorem Network.defect?_addBranch (net : Network) (types : Types) (place : Nat)
    (branch : List Element) :
    defect? (net.addBranch types place branch) = defect? (sketches types [] 0 branch) := by
  rw [addBranch_eq, defect?_map]

theorem Network.defect?_addBranches (net : Network) (types : Types) (place : Nat)
    (branches : Branches) :
    defect? (branches.foldlM (fun (net : Network) branch => net.addBranch types place branch) net) =
      branches.findSome? fun branch => defect? (sketches types [] 0 branch) := by
  induction branches generalizing net with
  | nil => rfl
  | cons branch rest ih =>
    rw [List.foldlM_cons, List.findSome?_cons, ← net.defect?_addBranch types place branch]
    cases net.addBranch types place branch with
    | error defect => rfl
    | ok net => exact ih net

theorem Network.defect?_addRule (net : Network) (types : Types) (place : Nat)
    (condition : Condition) : defect? (net.addRule types place condition) =
      condition.defect? fun branch => RuleNet.defect? (sketches types [] 0 branch) := by
  rw [addRule, Condition.defect?]
  cases condition.normalize with
  | error defect => rfl
  | ok branches => exact net.defect?_addBranches types place branches

/-- What a branch of a query asks for, after its parameters have been declared. -/
def outlinesOf (types : Types) (parameters : List String) (branch : List Element) :
    Except Defect (List Outline) := do
  let scope ← parameters.foldlM (fun (scope : Scope) name => scope.declare name .parameter) []
  outlines types scope 0 branch

theorem Plan.defect?_compileBranch (types : Types) (parameters : List String) (net : Network)
    (branch : List Element) : defect? (compileBranch types parameters net branch) =
      defect? (outlinesOf types parameters branch) := by
  rw [compileBranch, outlinesOf]
  cases parameters.foldlM (fun (scope : Scope) name => scope.declare name .parameter) [] with
  | error defect => rfl
  | ok scope =>
    have h := congrArg defect? (@Drafting.foldlM_addElement types branch ⟨net, 0, scope, []⟩)
    rw [defect?_map, defect?_map] at h
    exact (defect?_bind_pure _ _).trans h

theorem Plan.defect?_compileBranches (types : Types) (parameters : List String) (net : Network)
    (branches : Branches) : defect? (compileBranches types parameters net branches) =
      branches.findSome? fun branch => defect? (outlinesOf types parameters branch) := by
  induction branches generalizing net with
  | nil => rfl
  | cons branch rest ih =>
    rw [List.findSome?_cons, ← defect?_compileBranch types parameters net branch, compileBranches]
    cases compileBranch types parameters net branch with
    | error defect => rfl
    | ok found => exact (defect?_bind_pure _ _).trans (ih found.2)

theorem Plan.defect?_compile (types : Types) (net : Network) (query : Query) :
    defect? (compile types net query) =
      query.condition.defect? fun branch => defect? (outlinesOf types query.parameters branch) := by
  rw [compile, Condition.defect?]
  cases query.condition.normalize with
  | error defect => rfl
  | ok branches =>
    exact (defect?_bind_pure _ _).trans (defect?_compileBranches types query.parameters net branches)

/-- What is wrong with the condition of a rule. -/
def Rule.defect? (types : Types) (rule : Rule) : Option Defect :=
  RuleNet.defect? (Network.empty.addRule types 0 rule.condition)

/-- What is wrong with the parameters and the condition of a query. -/
def Query.defect? (types : Types) (query : Query) : Option Defect :=
  RuleNet.defect? (Plan.compile types .empty query)

/-- What is wrong with a rule does not depend on where it is added. -/
theorem Rule.defect?_eq (types : Types) (rule : Rule) (net : Network) (place : Nat) :
    RuleNet.defect? (net.addRule types place rule.condition) = rule.defect? types := by
  rw [Rule.defect?, Network.defect?_addRule, Network.defect?_addRule]

theorem Query.defect?_eq (types : Types) (query : Query) (net : Network) :
    RuleNet.defect? (Plan.compile types net query) = query.defect? types := by
  rw [Query.defect?, Plan.defect?_compile, Plan.defect?_compile]

/-! ## Reports -/

section
variable {α : Type}

/-- What is reported of items one after the other, each in the light of the earlier ones. -/
def inTurn (judge : List α → α → List Problem) : List α → List α → List Problem
  | _, [] => []
  | earlier, item :: rest => judge earlier item ++ inTurn judge (earlier ++ [item]) rest

/-- Steps that report what they should report it in turn. -/
theorem problems_foldl {β : Type} {step : Assembly → β → Assembly} (item : β → α)
    {judge : List α → α → List Problem} {I : List α → Assembly → Prop}
    (hstep : ∀ earlier a b, I earlier a → I (earlier ++ [item b]) (step a b) ∧
      (step a b).problems = a.problems ++ judge earlier (item b))
    (items : List β) {earlier : List α} {a : Assembly} (h : I earlier a) :
    I (earlier ++ items.map item) (items.foldl step a) ∧
      (items.foldl step a).problems = a.problems ++ inTurn judge earlier (items.map item) := by
  induction items generalizing earlier a with
  | nil => exact ⟨by rwa [List.map_nil, List.append_nil], (List.append_nil _).symm⟩
  | cons b rest ih =>
    obtain ⟨hinv, hproblems⟩ := hstep earlier a b h
    obtain ⟨hI, hrest⟩ := ih hinv
    refine ⟨?_, ?_⟩
    · rw [List.map_cons, ← List.singleton_append, ← List.append_assoc]
      exact hI
    · rw [List.foldl_cons, hrest, hproblems, List.map_cons, inTurn, List.append_assoc]

end

/-- What is reported of a type. -/
def typeProblems (earlier : List FactType) (type : FactType) : List Problem :=
  if earlier.any (·.name == type.name) then [⟨type.name, .repeatedType⟩] else []

/-- What is wrong with the name and the group of a rule that comes after others. -/
def Rule.labelDefects (earlier : List Rule) (rule : Rule) : List Defect :=
  (if trimBlanks rule.name = "" then [Defect.emptyName]
    else if earlier.any (·.name == rule.name) then [.repeatedRule] else []) ++
  if trimBlanks rule.group = "" then [.emptyGroup] else []

/-- What is reported of a rule: of its name and its group, and at most one defect of its
    condition. -/
def ruleProblems (types : Types) (earlier : List Rule) (rule : Rule) : List Problem :=
  (rule.labelDefects earlier ++ (rule.defect? types).toList).map fun defect => ⟨rule.name, defect⟩

/-- What is reported of a query: that an earlier one of its name stands, or a defect of its own. -/
def queryProblems (types : Types) (earlier : List Query) (query : Query) : List Problem :=
  if earlier.any fun other => other.name == query.name && (other.defect? types).isNone then
    [⟨query.name, .repeatedQuery⟩]
  else (query.defect? types).toList.map fun defect => ⟨query.name, defect⟩

theorem Entries.contains_insert {α : Type} (entries : Entries α) (name other : String) (value : α) :
    (entries.insert name value).contains other = (entries.contains other || name == other) := by
  rw [contains, find?_insert]
  by_cases h : name = other <;> simp [h, contains]

namespace Assembly

variable {a b : Assembly} {types : Types}

theorem reports_addType {earlier : List FactType} (type : FactType)
    (h : ∀ name, a.types.find? name = earlier.find? (·.name == name)) :
    (∀ name, (a.addType type).types.find? name = (earlier ++ [type]).find? (·.name == name)) ∧
    (a.addType type).problems = a.problems ++ typeProblems earlier type := by
  have hcontains : a.types.contains type.name = earlier.any (·.name == type.name) := by
    rw [Entries.contains, h, List.isSome_find?]
  unfold addType typeProblems
  rw [hcontains]
  split
  · next hany =>
    refine ⟨fun name => ?_, rfl⟩
    rw [List.find?_append]
    show a.types.find? name = _
    rw [h]
    by_cases hname : type.name = name
    · subst hname
      rw [← List.isSome_find?] at hany
      rw [Option.or_of_isSome hany]
    · simp [hname]
  · next hany =>
    refine ⟨fun name => ?_, (List.append_nil _).symm⟩
    show (a.types.insert type.name type).find? name = _
    rw [Entries.find?_insert, List.find?_append, h]
    split
    · next hname =>
      subst hname
      have hnone : earlier.find? (·.name == type.name) = none := by
        rwa [← List.isSome_find?, Option.not_isSome_iff_eq_none] at hany
      simp [hnone]
    · next hname => simp [hname]

theorem ordered_addType (h : a.types.Ordered) (type : FactType) : (a.addType type).types.Ordered := by
  unfold addType
  split
  · exact h
  · exact Entries.ordered_insert _ _ h

theorem queries_addRule (rule : Rule) (place : Nat) : (a.addRule rule place).queries = a.queries := by
  unfold addRule
  dsimp only
  split <;> rfl

theorem reports_addRule {earlier : List Rule} (rule : Rule) (place : Nat)
    (h : ∀ name, a.ruleNames.contains name = earlier.any (·.name == name)) :
    (∀ name, (a.addRule rule place).ruleNames.contains name =
      (earlier ++ [rule]).any (·.name == name)) ∧
    (a.addRule rule place).problems = a.problems ++ ruleProblems a.types earlier rule := by
  have hlabel : a.labelDefects rule = rule.labelDefects earlier := by
    rw [labelDefects, Rule.labelDefects, h]
  have hnames : ∀ name, (rule.name :: a.ruleNames).contains name =
      (earlier ++ [rule]).any (·.name == name) := fun name => by
    rw [List.contains_cons, h, List.any_append, List.any_cons, List.any_nil, Bool.or_false,
      Bool.or_comm, Bool.beq_comm]
  unfold addRule ruleProblems
  rw [hlabel]
  cases hdefect : rule.defect? a.types with
  | none =>
    obtain ⟨net, hnet⟩ := defect?_eq_none.1 ((rule.defect?_eq _ a.network place).trans hdefect)
    simp only [report, hnet, Option.toList_none, List.append_nil]
    exact ⟨hnames, trivial⟩
  | some defect =>
    have hnet := defect?_eq_some.1 ((rule.defect?_eq _ a.network place).trans hdefect)
    simp only [report, hnet, Option.toList_some, List.map_append, List.append_assoc]
    exact ⟨hnames, trivial⟩

theorem reports_addQuery {earlier : List Query} (query : Query)
    (h : ∀ name, a.queries.contains name =
      earlier.any fun other => other.name == name && (other.defect? a.types).isNone) :
    (∀ name, (a.addQuery query).queries.contains name =
      (earlier ++ [query]).any fun other => other.name == name && (other.defect? a.types).isNone) ∧
    (a.addQuery query).problems = a.problems ++ queryProblems a.types earlier query := by
  unfold addQuery queryProblems
  rw [h query.name]
  split
  · next hany =>
    refine ⟨fun name => ?_, rfl⟩
    show a.queries.contains name = _
    rw [List.any_append, ← h]
    by_cases hname : query.name = name
    · rw [← hname, h, hany, Bool.true_or]
    · simp [hname]
  · cases hdefect : query.defect? a.types with
    | none =>
      obtain ⟨⟨plan, net⟩, hplan⟩ := defect?_eq_none.1 ((query.defect?_eq _ a.network).trans hdefect)
      simp only [hplan, Option.toList_none, List.map_nil, List.append_nil, Entries.contains_insert, h]
      refine ⟨fun name => ?_, trivial⟩
      simp [hdefect]
    | some defect =>
      have hplan := defect?_eq_some.1 ((query.defect?_eq _ a.network).trans hdefect)
      simp only [hplan, report, Option.toList_some, h]
      refine ⟨fun name => ?_, trivial⟩
      simp [hdefect]

end Assembly

/-! ## Everything in one network -/

section
variable {α : Type} {result : EStateM.Result Defect Network α}

theorem ok_of_outcome {a : α} {net : Network} (h : outcome result = .ok (a, net)) :
    result = .ok a net := by
  cases result <;> cases h
  rfl

theorem error_of_outcome {defect : Defect} (h : outcome result = .error defect) :
    ∃ net, result = .error defect net := by
  cases result <;> cases h
  exact ⟨_, rfl⟩

end

namespace Assembly

variable {a b : Assembly}

/-- Add the rule at a place among the rules, in place. -/
def addRuleInPlace (a : Assembly) (rule : Rule) (place : Nat) : Assembly :=
  let labelled := { a.report rule.name (a.labelDefects rule) with
    ruleNames := rule.name :: a.ruleNames }
  match rule.condition.write labelled.types place labelled.network with
  | .ok _ network => { labelled with network }
  | .error defect network => { labelled with network }.report rule.name [defect]

/-- Add a query in place. -/
def addQueryInPlace (a : Assembly) (query : Query) : Assembly :=
  if a.queries.contains query.name then a.report query.name [.repeatedQuery]
  else match query.write a.types a.network with
    | .ok plan network => { a with network, queries := a.queries.insert query.name plan }
    | .error defect network => { a with network }.report query.name [defect]

/-- Two assemblies that have compiled the same, but for the networks if something was wrong. -/
structure Alike (a b : Assembly) : Prop where
  types : a.types = b.types
  ruleNames : a.ruleNames = b.ruleNames
  problems : a.problems = b.problems
  queries : ∀ name, a.queries.contains name = b.queries.contains name
  same : a.problems = [] → a = b

theorem Alike.addRule (h : a.Alike b) (rule : Rule) (place : Nat) :
    (a.addRule rule place).Alike (b.addRuleInPlace rule place) := by
  have hlabel : a.labelDefects rule = b.labelDefects rule := by
    rw [labelDefects, labelDefects, h.ruleNames]
  have hwrite := rule.condition.outcome_write b.types place b.network
  unfold Assembly.addRule addRuleInPlace
  cases hdefect : rule.defect? a.types with
  | none =>
    obtain ⟨net, hnet⟩ := defect?_eq_none.1 ((rule.defect?_eq _ a.network place).trans hdefect)
    obtain ⟨net', hnet'⟩ :=
      defect?_eq_none.1 ((rule.defect?_eq _ b.network place).trans (h.types ▸ hdefect))
    rw [hnet'] at hwrite
    simp only [report, hnet, ok_of_outcome hwrite, hlabel]
    refine ⟨h.types, by rw [h.ruleNames], by rw [h.problems], h.queries, fun hnone => ?_⟩
    obtain rfl := h.same (List.append_eq_nil_iff.1 hnone).1
    obtain rfl := Except.ok.inj (hnet.symm.trans hnet')
    rfl
  | some defect =>
    have hnet := defect?_eq_some.1 ((rule.defect?_eq _ a.network place).trans hdefect)
    have hnet' := defect?_eq_some.1 ((rule.defect?_eq _ b.network place).trans (h.types ▸ hdefect))
    rw [hnet'] at hwrite
    obtain ⟨left, hleft⟩ := error_of_outcome hwrite
    simp only [report, hnet, hleft, hlabel]
    exact ⟨h.types, by rw [h.ruleNames], by rw [h.problems], h.queries, fun hnone => by simp at hnone⟩

theorem Alike.addQuery (h : a.Alike b) (query : Query) :
    (a.addQuery query).Alike (b.addQueryInPlace query) := by
  have hwrite := query.outcome_write b.types b.network
  unfold Assembly.addQuery addQueryInPlace
  rw [← h.queries]
  split
  · simp only [report]
    exact ⟨h.types, h.ruleNames, by rw [h.problems], h.queries, fun hnone => by simp at hnone⟩
  · cases hdefect : query.defect? a.types with
    | none =>
      obtain ⟨⟨plan, net⟩, hplan⟩ := defect?_eq_none.1 ((query.defect?_eq _ a.network).trans hdefect)
      obtain ⟨⟨plan', net'⟩, hplan'⟩ :=
        defect?_eq_none.1 ((query.defect?_eq _ b.network).trans (h.types ▸ hdefect))
      rw [hplan'] at hwrite
      simp only [hplan, ok_of_outcome hwrite]
      refine ⟨h.types, h.ruleNames, h.problems, fun name => ?_, fun hnone => ?_⟩
      · rw [Entries.contains_insert, Entries.contains_insert, h.queries]
      · obtain rfl := h.same hnone
        obtain ⟨rfl, rfl⟩ := Prod.mk.inj (Except.ok.inj (hplan.symm.trans hplan'))
        rfl
    | some defect =>
      have hplan := defect?_eq_some.1 ((query.defect?_eq _ a.network).trans hdefect)
      have hplan' := defect?_eq_some.1 ((query.defect?_eq _ b.network).trans (h.types ▸ hdefect))
      rw [hplan'] at hwrite
      obtain ⟨left, hleft⟩ := error_of_outcome hwrite
      simp only [report, hplan, hleft]
      exact ⟨h.types, h.ruleNames, by rw [h.problems], h.queries, fun hnone => by simp at hnone⟩

end Assembly

namespace Declarations

/-- Compile what can be compiled, in place. -/
def assembleInPlace (declarations : Declarations) : Assembly :=
  let types := declarations.types.foldl Assembly.addType .empty
  let rules := declarations.rules.zipIdx.foldl (fun a rule => a.addRuleInPlace rule.1 rule.2) types
  declarations.queries.foldl Assembly.addQueryInPlace rules

/-- The rule base, or everything that is wrong, compiled in place. -/
def buildInPlace (declarations : Declarations) : Except EngineError RuleBase :=
  let assembly := declarations.assembleInPlace
  if assembly.problems.isEmpty then
    .ok ⟨assembly.types, declarations.rules, assembly.queries, assembly.network.finish⟩
  else .error (.rejected assembly.problems)

theorem alike_foldl {α : Type} {f g : Assembly → α → Assembly}
    (hstep : ∀ a b item, Assembly.Alike a b → (f a item).Alike (g b item)) (items : List α)
    {a b : Assembly} (h : a.Alike b) : (items.foldl f a).Alike (items.foldl g b) := by
  induction items generalizing a b with
  | nil => exact h
  | cons item rest ih => exact ih (hstep a b item h)

theorem alike_assemble (d : Declarations) : d.assemble.Alike d.assembleInPlace :=
  alike_foldl (fun _ _ query h => h.addQuery query) _
    (alike_foldl (fun _ _ rule h => h.addRule rule.1 rule.2) _
      ⟨rfl, rfl, rfl, fun _ => rfl, fun _ => rfl⟩)

theorem buildInPlace_eq (d : Declarations) : d.buildInPlace = d.build := by
  have h := d.alike_assemble
  unfold buildInPlace build
  dsimp only
  rw [← h.problems]
  split
  · next hnone => rw [h.same (List.isEmpty_iff.1 hnone)]
  · rfl

/-! ## All problems -/

theorem problems_types (d : Declarations) :
    (∀ name, d.typesOf.find? name = d.types.find? (·.name == name)) ∧
    (d.types.foldl Assembly.addType .empty).problems = inTurn typeProblems [] d.types := by
  have h := @problems_foldl _ _ Assembly.addType id typeProblems
    (fun earlier a => ∀ name, a.types.find? name = earlier.find? (·.name == name))
    (fun _ _ type h => Assembly.reports_addType type h) d.types [] .empty fun _ => rfl
  rwa [List.map_id, List.nil_append] at h

theorem ordered_typesOf (d : Declarations) : d.typesOf.Ordered :=
  List.foldlRecOn _ _ (motive := fun a : Assembly => a.types.Ordered) List.Pairwise.nil
    fun _ h type _ => Assembly.ordered_addType h type

/-- The types are the first declarations of their names, and nothing else. -/
theorem typesOf_congr {d d' : Declarations}
    (h : ∀ name, d.types.find? (·.name == name) = d'.types.find? (·.name == name)) :
    d.typesOf = d'.typesOf := by
  refine Entries.ext d.ordered_typesOf d'.ordered_typesOf fun name => ?_
  rw [d.problems_types.1, d'.problems_types.1, h]

theorem only_types (d : Declarations) :
    (d.types.foldl Assembly.addType .empty).queries = [] ∧
      (d.types.foldl Assembly.addType .empty).ruleNames = [] :=
  List.foldlRecOn _ _ (motive := fun a : Assembly => a.queries = [] ∧ a.ruleNames = []) ⟨rfl, rfl⟩
    fun a h type _ => by
      unfold Assembly.addType
      split <;> exact h

/-- Types are reported first, then rules, then queries. -/
theorem problems_eq (d : Declarations) : d.problems =
    inTurn typeProblems [] d.types ++ inTurn (ruleProblems d.typesOf) [] d.rules ++
      inTurn (queryProblems d.typesOf) [] d.queries := by
  have hrules := @problems_foldl _ _ (fun a (rule : Rule × Nat) => a.addRule rule.1 rule.2) Prod.fst
    (ruleProblems d.typesOf)
    (fun earlier a => a.types = d.typesOf ∧ a.queries = [] ∧
      ∀ name, a.ruleNames.contains name = earlier.any (·.name == name))
    (fun earlier a rule h => by
      obtain ⟨htypes, hqueries, hnames⟩ := h
      obtain ⟨hnames', hproblems⟩ := Assembly.reports_addRule rule.1 rule.2 hnames
      exact ⟨⟨(a.types_addRule _ _).trans htypes, (a.queries_addRule _ _).trans hqueries, hnames'⟩,
        htypes ▸ hproblems⟩)
    d.rules.zipIdx [] (d.types.foldl Assembly.addType .empty)
    ⟨rfl, d.only_types.1, fun name => by rw [d.only_types.2]; rfl⟩
  rw [List.nil_append, List.zipIdx_map_fst] at hrules
  obtain ⟨⟨htypes, hqueries, -⟩, hrules⟩ := hrules
  have hall := @problems_foldl _ _ Assembly.addQuery id (queryProblems d.typesOf)
    (fun earlier a => a.types = d.typesOf ∧ ∀ name, a.queries.contains name =
      earlier.any fun other => other.name == name && (other.defect? d.typesOf).isNone)
    (fun earlier a query h => by
      obtain ⟨htypes, hnames⟩ := h
      rw [← htypes] at hnames ⊢
      obtain ⟨hnames', hproblems⟩ := Assembly.reports_addQuery query hnames
      exact ⟨⟨a.types_addQuery _, hnames'⟩, hproblems⟩)
    d.queries [] _ ⟨htypes, fun name => by rw [hqueries]; rfl⟩
  rw [List.map_id, hrules, d.problems_types.2] at hall
  exact hall.2

/-- The network when the rule at a place has its turn, with all that earlier rules left in it. -/
def networkBefore (d : Declarations) (place : Nat) : Network :=
  ((d.rules.zipIdx.take place).foldl (fun a rule => a.addRuleInPlace rule.1 rule.2)
    (d.types.foldl Assembly.addType .empty)).network

/-- What is wrong with the condition of the rule at a place, when it has its turn. -/
def diagnosis? (d : Declarations) (place : Nat) : Option Defect :=
  d.rules[place]?.bind fun rule =>
    defect? (outcome (rule.condition.write d.typesOf place (d.networkBefore place)))

/-- A rule base is built exactly if nothing is reported. What is reported is, in order, the repeated
    types; of each rule what is wrong with its name and its group, and at most one defect of its
    condition; and of each query one problem at most. It makes no difference that all of it is
    compiled into one network, in which broken rules leave something behind: the defect of a
    condition depends on nothing but the condition and the first type of each name. -/
theorem diagnosis (d d' : Declarations)
    (h : ∀ name, d.types.find? (·.name == name) = d'.types.find? (·.name == name)) :
    ((∃ base, d.build = .ok base) ↔ d.problems = []) ∧
    (d.problems ≠ [] → d.build = .error (.rejected d.problems)) ∧
    d.problems = inTurn typeProblems [] d.types ++ inTurn (ruleProblems d.typesOf) [] d.rules ++
      inTurn (queryProblems d.typesOf) [] d.queries ∧
    (d.buildInPlace = d.build ∧ d.assembleInPlace.problems = d.problems) ∧
    (∀ name, d.typesOf.find? name = d.types.find? (·.name == name)) ∧
    (∀ (rule : Rule) net place,
      defect? (outcome (rule.condition.write d.typesOf place net)) = rule.defect? d'.typesOf) ∧
    (∀ (query : Query) net,
      defect? (outcome (query.write d.typesOf net)) = query.defect? d'.typesOf) ∧
    ∀ place place' rule, d.rules[place]? = some rule → d'.rules[place']? = some rule →
      d.diagnosis? place = d'.diagnosis? place' := by
  have hbuild : d.build = if d.problems.isEmpty then
      .ok ⟨d.assemble.types, d.rules, d.assemble.queries, d.assemble.network.finish⟩
    else .error (.rejected d.problems) := rfl
  have hrule : ∀ (e : Declarations) (rule : Rule) net place,
      defect? (outcome (rule.condition.write e.typesOf place net)) = rule.defect? e.typesOf :=
    fun e rule net place => by rw [Condition.outcome_write, defect?_map, rule.defect?_eq]
  have htypes := typesOf_congr h
  refine ⟨⟨?_, fun hnone => ⟨_, by rw [hbuild, hnone]; rfl⟩⟩, fun hsome => ?_, d.problems_eq,
    ⟨d.buildInPlace_eq, d.alike_assemble.problems.symm⟩, d.problems_types.1,
    fun rule net place => htypes ▸ hrule d rule net place, fun query net => ?_, ?_⟩
  · rintro ⟨base, hbase⟩
    exact (build_eq hbase).1
  · rw [hbuild, if_neg]
    exact fun hempty => hsome (List.isEmpty_iff.1 hempty)
  · rw [query.outcome_write, query.defect?_eq, htypes]
  · intro place place' rule hd hd'
    simp only [diagnosis?, hd, hd', Option.bind_some]
    rw [hrule, hrule, htypes]

/-- A rule that breaks off after its first pattern, and one that binds what there is not. -/
def echoes : Declarations where
  types := [⟨"alarm", [("level", .integer)], .fact, none, none⟩]
  rules := [⟨"echo", 0, mainGroup, false, false, false, .all [.pattern ⟨"alarm", none, [], [], none⟩,
      .pattern ⟨"echo", none, [], [], none⟩], fun _ => .done⟩,
    ⟨"pitch", 0, mainGroup, false, false, false,
      .all [.pattern ⟨"alarm", none, [], [], none⟩,
        .pattern ⟨"alarm", none, [], [("p", "pitch")], none⟩], fun _ => .done⟩]
  queries := []

/-- The second rule alone, and the type declared once more. -/
def pitches : Declarations where
  types := echoes.types ++ [⟨"alarm", [("pitch", .integer)], .event, none, none⟩]
  rules := echoes.rules.drop 1
  queries := []

/-- The first rule leaves its first pattern behind, and the second one is reported as if alone. -/
theorem diagnosis_echoes :
    (∀ name, echoes.types.find? (·.name == name) = pitches.types.find? (·.name == name)) ∧
    (echoes.networkBefore 1).nodes.size = 1 ∧
    echoes.diagnosis? 1 = pitches.diagnosis? 0 ∧
    pitches.diagnosis? 0 = some (.unknownBoundField "p" "alarm" "pitch") ∧
    echoes.build = .error (.rejected [⟨"echo", .unknownType "echo"⟩,
      ⟨"pitch", .unknownBoundField "p" "alarm" "pitch"⟩]) ∧
    pitches.problems = [⟨"alarm", .repeatedType⟩,
      ⟨"pitch", .unknownBoundField "p" "alarm" "pitch"⟩] := by
  have hfirst : ∀ name,
      echoes.types.find? (·.name == name) = pitches.types.find? (·.name == name) := fun name => by
    by_cases hname : "alarm" = name <;> simp [echoes, pitches, hname]
  have hproblems : echoes.problems = [⟨"echo", .unknownType "echo"⟩,
      ⟨"pitch", .unknownBoundField "p" "alarm" "pitch"⟩] := by decide +kernel
  have h := diagnosis echoes pitches hfirst
  refine ⟨hfirst, by decide +kernel, h.2.2.2.2.2.2.2 1 0 _ rfl rfl, by decide +kernel, ?_,
    by decide +kernel⟩
  rw [h.2.1 (by simp [hproblems]), hproblems]

end Declarations

end RuleNet
