/-
  Branches of queries before they have their memories.

  * `Outline`: what one step of a query asks for, but for the memory that it reads.
  * `Element.outline`, `outlines`: the steps of a branch, or the first defect in it.
  * `Drafting.addElement_eq`, `Plan.compileBranch_eq`: a query is outlined, and then the network finds
    or makes a memory for each step.
-/
import RuleNet.Proofs.Network.Sketch
import RuleNet.Query.Plan

namespace RuleNet

/-! ## Steps -/

/-- What one step of a query asks for. -/
structure Outline where
  supply? : Option Supply
  /-- What the members of the memory are looked up by. -/
  lookUp : Option (String × Reference)
  step : AlphaId → PlanStep

/-- What a pattern of a query asks a memory to take, and the tests that are left for the step. -/
def Pattern.outline (types : Types) (scope : Scope) (pattern : Pattern) :
    Except Defect (FactType × Supply × List (Test Reference)) := do
  let type ← checkPattern types pattern
  let constant ← Scope.tests .byDepth types [] type (pattern.constraints.filter (·.isConstant))
  let tests ← scope.tests .byName types type (pattern.constraints.filter fun c => !c.isConstant)
  .ok (type, ⟨type.name, constant, pattern.window⟩, tests)

/-- What the members of a memory are looked up by for some tests. -/
def Source.lookUpFor (tests : List (Test Reference)) : Option (String × Reference) :=
  (tests.filterMap Test.equalityPlace?).head?

/-- The source of a step that reads a memory. -/
def Outline.source (tests : List (Test Reference)) (a : AlphaId) : Source :=
  ⟨a, Source.lookUpFor tests, tests⟩

/-- A step that reads a memory by some tests. -/
def Outline.of (supply : Supply) (tests : List (Test Reference)) (step : Source → PlanStep) :
    Outline :=
  ⟨some supply, Source.lookUpFor tests, fun a => step (source tests a)⟩

/-- What an element of a query's branch asks for after some steps, and the variables bound then. -/
def Element.outline (types : Types) (scope : Scope) (depth : Nat) :
    Element → Except Defect (Outline × Scope)
  | .pattern p => do
    let (_, supply, tests) ← p.outline types scope
    let scope ← scope.declarePattern p (depth + 1)
    .ok (.of supply tests fun source => .each source p.factVar p.fieldVars, scope)
  | .absent p => do
    checkBindsNothing .absence p
    let (_, supply, tests) ← p.outline types scope
    .ok (.of supply tests .absent, scope)
  | .present p => do
    checkBindsNothing .absence p
    let (_, supply, tests) ← p.outline types scope
    .ok (.of supply tests .present, scope)
  | .every base require => do
    checkBindsNothing .universal base
    let (type, supply, tests) ← base.outline types scope
    let required ← scope.tests .byName types type require
    .ok (.of supply tests fun source =>
      .absent { source with tests := source.tests ++ [.not (.all required)] }, scope)
  | .accumulate acc => do
    checkBindsNothing .accumulate acc.source
    let type ← checkPattern types acc.source
    checkFold type acc.fold
    let (_, supply, tests) ← acc.source.outline types scope
    let having ← match acc.having with
      | some (operator, operand) => do
        let operand ← scope.operand .byName types operand
        .ok (some (operator, operand))
      | none => .ok none
    let scope ← scope.declare acc.result (.result (depth + 1))
    .ok (.of supply tests fun source => .accumulate source acc.fold acc.result having, scope)
  | .predicate p => .ok (⟨none, none, fun _ => .predicate p⟩, scope)

/-- What the elements of a query's branch ask for. -/
def outlines (types : Types) (scope : Scope) (depth : Nat) :
    List Element → Except Defect (List Outline)
  | [] => .ok []
  | e :: rest => do
    let (outline, scope) ← e.outline types scope depth
    let others ← outlines types scope (depth + 1) rest
    .ok (outline :: others)

/-! ## Memories for steps -/

namespace Network

/-- A memory that can be looked up as it should. -/
def findable (net : Network) (a : AlphaId) : Option (String × Reference) → Network
  | some (field, _) => net.indexField a field
  | none => net

/-- The step of an outline, with its memory. -/
def place (net : Network) (outline : Outline) : PlanStep × Network :=
  (outline.step (net.supplied outline.supply?).1,
    (net.supplied outline.supply?).2.findable (net.supplied outline.supply?).1 outline.lookUp)

/-- The steps of outlines, one after the other. -/
def placeAll (net : Network) : List Outline → List PlanStep × Network
  | [] => ([], net)
  | outline :: rest =>
    ((net.place outline).1 :: ((net.place outline).2.placeAll rest).1,
      ((net.place outline).2.placeAll rest).2)

end Network

namespace Drafting

variable {types : Types}

theorem source_eq (d : Drafting) (pattern : Pattern) :
    d.source types pattern = (pattern.outline types d.scope).map fun s =>
      (s.1, Outline.source s.2.2 (d.net.supplied (some s.2.1)).1,
        (d.net.supplied (some s.2.1)).2.findable (d.net.supplied (some s.2.1)).1
          (Source.lookUpFor s.2.2)) := by
  simp only [source, Pattern.outline, bind, Except.bind]
  rcases checkPattern types pattern with e | type
  · rfl
  dsimp only
  rcases Scope.tests .byDepth types [] type (pattern.constraints.filter (·.isConstant)) with
    e | constant
  · rfl
  dsimp only
  rcases d.scope.tests .byName types type (pattern.constraints.filter fun c => !c.isConstant) with
    e | tests
  · rfl
  dsimp only [Except.map, Outline.source, Source.lookUpFor, Network.supplied]
  cases (tests.filterMap Test.equalityPlace?).head? <;> rfl

/-- The branch goes on by one step. -/
def follow (d : Drafting) (outline : Outline) (scope : Scope) : Drafting :=
  ⟨(d.net.place outline).2, d.depth + 1, scope, d.steps ++ [(d.net.place outline).1]⟩

/-- An element is outlined and then gets its memory. -/
theorem addElement_eq (d : Drafting) (e : Element) : d.addElement types e =
    (e.outline types d.scope d.depth).map fun s => d.follow s.1 s.2 := by
  cases e with
  | pattern p =>
    simp only [addElement, Element.outline, source_eq, bind, Except.bind]
    rcases p.outline types d.scope with e | s
    · rfl
    dsimp only [Except.map]
    rcases d.scope.declarePattern p (d.depth + 1) with e | scope <;> rfl
  | absent p =>
    simp only [addElement, Element.outline, source_eq, bind, Except.bind]
    rcases checkBindsNothing .absence p with e | u
    · rfl
    dsimp only
    rcases p.outline types d.scope with e | s <;> rfl
  | present p =>
    simp only [addElement, Element.outline, source_eq, bind, Except.bind]
    rcases checkBindsNothing .absence p with e | u
    · rfl
    dsimp only
    rcases p.outline types d.scope with e | s <;> rfl
  | every base require =>
    simp only [addElement, Element.outline, source_eq, bind, Except.bind]
    rcases checkBindsNothing .universal base with e | u
    · rfl
    dsimp only
    rcases base.outline types d.scope with e | s
    · rfl
    dsimp only [Except.map]
    rcases d.scope.tests .byName types s.1 require with e | required <;> rfl
  | accumulate acc =>
    simp only [addElement, Element.outline, source_eq, bind, Except.bind]
    rcases checkBindsNothing .accumulate acc.source with e | u
    · rfl
    dsimp only
    rcases checkPattern types acc.source with e | type
    · rfl
    dsimp only
    rcases checkFold type acc.fold with e | u
    · rfl
    dsimp only
    rcases acc.source.outline types d.scope with e | s
    · rfl
    dsimp only [Except.map]
    rcases acc.having with - | ⟨operator, operand⟩
    · dsimp only
      rcases d.scope.declare acc.result (.result (d.depth + 1)) with e | scope <;> rfl
    · dsimp only
      rcases d.scope.operand .byName types operand with e | operand
      · rfl
      dsimp only
      rcases d.scope.declare acc.result (.result (d.depth + 1)) with e | scope <;> rfl
  | predicate p => rfl

/-- A whole branch is outlined and then gets its memories. -/
theorem foldlM_addElement (branch : List Element) (d : Drafting) :
    (branch.foldlM (addElement types) d).map (fun d => (d.steps, d.net)) =
      (outlines types d.scope d.depth branch).map fun s =>
        (d.steps ++ (d.net.placeAll s).1, (d.net.placeAll s).2) := by
  induction branch generalizing d with
  | nil => simp [outlines, Network.placeAll, Except.map, pure, Except.pure]
  | cons e rest ih =>
    rw [List.foldlM_cons, addElement_eq]
    simp only [outlines, bind, Except.bind]
    rcases e.outline types d.scope d.depth with e | s
    · rfl
    dsimp only [Except.map]
    refine (ih (d.follow s.1 s.2)).trans ?_
    show (outlines types s.2 (d.depth + 1) rest).map _ = _
    rcases outlines types s.2 (d.depth + 1) rest with e | others
    · rfl
    · simp only [Except.map, follow, Network.placeAll, List.append_assoc, List.singleton_append]

end Drafting

/-- A branch of a query without parameters is outlined, and then gets its memories. -/
theorem Plan.compileBranch_eq (types : Types) (net : Network) (branch : List Element) :
    compileBranch types [] net branch = (outlines types [] 0 branch).map net.placeAll := by
  have h := @Drafting.foldlM_addElement types branch ⟨net, 0, [], []⟩
  simp only [compileBranch, List.foldlM_nil, pure, Except.pure, bind, Except.bind]
  rcases hd : branch.foldlM (Drafting.addElement types) ⟨net, 0, [], []⟩ with e | d
  · rw [hd] at h
    cases hs : outlines types [] 0 branch with
    | error e' => rw [hs] at h; exact h
    | ok s => rw [hs] at h; cases h
  · rw [hd] at h
    cases hs : outlines types [] 0 branch with
    | error e' => rw [hs] at h; cases h
    | ok s =>
      rw [hs] at h
      have heq : (d.steps, d.net) = ([] ++ (net.placeAll s).1, (net.placeAll s).2) := Except.ok.inj h
      show Except.ok (d.steps, d.net) = Except.ok (net.placeAll s)
      rw [heq, List.nil_append]

end RuleNet
