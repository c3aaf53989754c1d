/-
  Branches before they have their place in a network.

  What a branch asks for does not depend on the network that it comes to. It is sketched first, step by
  step; the network then finds or makes a memory and a node for each step.

  * `Sketch`: what one step asks for.
  * `Element.sketch`, `sketches`: the steps of a branch, or the first defect in it.
  * `Element.Sketched`: what was found out for an element whose step has no defect.
  * `Network.follow`, `Network.addBranch_eq`: the network finds a place for each step.
-/
import RuleNet.Proofs.Network.Build

namespace RuleNet

/-! ## Steps -/

/-- What an alpha memory is asked to take. -/
structure Supply where
  type : String
  tests : List (Test Place)
  window : Option Window

/-- What one step of a branch asks for. -/
inductive Sketch where
  | join (supply : Supply) (tests : List (Test Place))
  | absent (supply : Supply) (tests : List (Test Place))
  | present (supply : Supply) (tests : List (Test Place))
  | accumulate (supply : Supply) (tests : List (Test Place)) (fold : Fold)
      (having : Option (Operator × TestOperand Place))
  | predicate (p : Predicate) (scope : List (String × Place))

namespace Sketch

def supply? : Sketch → Option Supply
  | join supply _ => some supply
  | absent supply _ => some supply
  | present supply _ => some supply
  | accumulate supply _ _ _ => some supply
  | predicate _ _ => none

/-- The feed by a memory for some tests. -/
def feed (a : AlphaId) (tests : List (Test Place)) : Feed := ⟨a, tests, JoinIndex.choose? tests⟩

/-- The kind of the step's node, fed by a memory. -/
def kind (a : AlphaId) : Sketch → NodeKind
  | join _ tests => .join (feed a tests)
  | absent _ tests => .absent (feed a tests)
  | present _ tests => .present (feed a tests)
  | accumulate _ tests fold having => .accumulate (feed a tests) fold having
  | predicate p scope => .predicate p scope

theorem feed?_kind (a : AlphaId) {sketch : Sketch} {feed : Feed}
    (h : (sketch.kind a).feed? = some feed) :
    feed.alpha = a ∧ ∃ supply, sketch.supply? = some supply := by
  cases sketch <;> cases h <;> exact ⟨rfl, _, rfl⟩

end Sketch

/-! ## Branches -/

/-- What a pattern asks a memory to take, and the tests that are left for the node. -/
def Pattern.supply (types : Types) (scope : Scope) (type : FactType) (pattern : Pattern) :
    Except Defect (Supply × List (Test Place)) := do
  let tests ← scope.tests .byDepth types type pattern.constraints
  let (constant, joined) := (pattern.constraints.zip tests).partition fun item => item.1.isConstant
  .ok (⟨type.name, constant.map Prod.snd, pattern.window⟩, joined.map Prod.snd)

/-- What an element of a branch asks for after some steps, and the variables bound then. -/
def Element.sketch (types : Types) (scope : Scope) (depth : Nat) :
    Element → Except Defect (Sketch × Scope)
  | .pattern p => do
    let type ← checkPattern types p
    let (supply, tests) ← p.supply types scope type
    let scope ← scope.declarePattern p (depth + 1)
    .ok (.join supply tests, scope)
  | .absent p => do
    checkBindsNothing .absence p
    let type ← checkPattern types p
    let (supply, tests) ← p.supply types scope type
    .ok (.absent supply tests, scope)
  | .present p => do
    checkBindsNothing .absence p
    let type ← checkPattern types p
    let (supply, tests) ← p.supply types scope type
    .ok (.present supply tests, scope)
  | .every base require => do
    checkBindsNothing .universal base
    let type ← checkPattern types base
    let (supply, tests) ← base.supply types scope type
    let required ← scope.tests .byDepth types type require
    .ok (.absent supply (tests ++ [.not (.all required)]), scope)
  | .accumulate acc => do
    checkBindsNothing .accumulate acc.source
    let type ← checkPattern types acc.source
    checkFold type acc.fold
    let (supply, tests) ← acc.source.supply types scope type
    let having ← match acc.having with
      | some (operator, operand) => do
        let operand ← scope.operand .byDepth types operand
        .ok (some (operator, operand))
      | none => .ok none
    let scope ← scope.declare acc.result (.result (depth + 1))
    .ok (.accumulate supply tests acc.fold having, scope)
  | .predicate p => .ok (.predicate p scope.places, scope)

/-- What the elements of a branch ask for, and the variables bound in the end. -/
def sketches (types : Types) (scope : Scope) (depth : Nat) :
    List Element → Except Defect (List Sketch × Scope)
  | [] => .ok ([], scope)
  | e :: rest => do
    let (sketch, scope) ← e.sketch types scope depth
    let (others, scope) ← sketches types scope (depth + 1) rest
    .ok (sketch :: others, scope)

/-- What comes first in a branch is sketched first. -/
theorem sketches_append {types : Types} {scope scope' : Scope} {depth : Nat}
    {before after : List Element} {steps : List Sketch}
    (h : sketches types scope depth (before ++ after) = .ok (steps, scope')) :
    ∃ first rest scope₁, sketches types scope depth before = .ok (first, scope₁) ∧
      sketches types scope₁ (depth + before.length) after = .ok (rest, scope') ∧
      steps = first ++ rest ∧ first.length = before.length := by
  induction before generalizing scope depth steps with
  | nil => exact ⟨[], steps, scope, rfl, h, rfl, rfl⟩
  | cons e before ih =>
    obtain ⟨⟨sketch, scope₁⟩, hsketch, h⟩ := ok_of_bind h
    obtain ⟨⟨others, scope₂⟩, hothers, h⟩ := ok_of_bind h
    cases h
    obtain ⟨first, rest, scope₃, hfirst, hrest, rfl, hlength⟩ := ih hothers
    refine ⟨sketch :: first, rest, scope₃, ?_, ?_, rfl, congrArg Nat.succ hlength⟩
    · rw [sketches, hsketch]
      simp only [bind, Except.bind, hfirst]
    · rw [List.length_cons, Nat.add_comm before.length 1, ← Nat.add_assoc]
      exact hrest

/-- The sketch of an element without defects, with what was found out for it. -/
inductive Element.Sketched (types : Types) (scope : Scope) (depth : Nat) :
    Element → Sketch → Scope → Prop
  | pattern {p : Pattern} {type : FactType} {supply : Supply} {tests : List (Test Place)}
    {scope' : Scope} (htype : checkPattern types p = .ok type)
    (hsupply : p.supply types scope type = .ok (supply, tests))
    (hscope : scope.declarePattern p (depth + 1) = .ok scope') :
    Sketched types scope depth (.pattern p) (.join supply tests) scope'
  | absent {p : Pattern} {type : FactType} {supply : Supply} {tests : List (Test Place)}
    (hnothing : checkBindsNothing .absence p = .ok ()) (htype : checkPattern types p = .ok type)
    (hsupply : p.supply types scope type = .ok (supply, tests)) :
    Sketched types scope depth (.absent p) (.absent supply tests) scope
  | present {p : Pattern} {type : FactType} {supply : Supply} {tests : List (Test Place)}
    (hnothing : checkBindsNothing .absence p = .ok ()) (htype : checkPattern types p = .ok type)
    (hsupply : p.supply types scope type = .ok (supply, tests)) :
    Sketched types scope depth (.present p) (.present supply tests) scope
  | every {base : Pattern} {require : List Constraint} {type : FactType} {supply : Supply}
    {tests required : List (Test Place)} (hnothing : checkBindsNothing .universal base = .ok ())
    (htype : checkPattern types base = .ok type)
    (hsupply : base.supply types scope type = .ok (supply, tests))
    (hrequired : scope.tests .byDepth types type require = .ok required) :
    Sketched types scope depth (.every base require)
      (.absent supply (tests ++ [.not (.all required)])) scope
  | accumulate {acc : Accumulate} {type : FactType} {supply : Supply} {tests : List (Test Place)}
    {having : Option (Operator × TestOperand Place)} {scope' : Scope}
    (hnothing : checkBindsNothing .accumulate acc.source = .ok ())
    (htype : checkPattern types acc.source = .ok type) (hfold : checkFold type acc.fold = .ok ())
    (hsupply : acc.source.supply types scope type = .ok (supply, tests))
    (hhaving : Option.Rel (fun given asked => given.1 = asked.1 ∧
      scope.operand .byDepth types given.2 = .ok asked.2) acc.having having)
    (hscope : scope.declare acc.result (.result (depth + 1)) = .ok scope') :
    Sketched types scope depth (.accumulate acc) (.accumulate supply tests acc.fold having) scope'
  | predicate (p : Predicate) :
    Sketched types scope depth (.predicate p) (.predicate p scope.places) scope

theorem Element.sketched {types : Types} {scope scope' : Scope} {depth : Nat} {e : Element}
    {sketch : Sketch} (h : e.sketch types scope depth = .ok (sketch, scope')) :
    Sketched types scope depth e sketch scope' := by
  cases e with
  | pattern p =>
    obtain ⟨type, htype, h⟩ := ok_of_bind h
    obtain ⟨⟨supply, tests⟩, hsupply, h⟩ := ok_of_bind h
    obtain ⟨scope₁, hscope, h⟩ := ok_of_bind h
    cases h
    exact .pattern htype hsupply hscope
  | absent p =>
    obtain ⟨u, hnothing, h⟩ := ok_of_bind h
    obtain ⟨type, htype, h⟩ := ok_of_bind h
    obtain ⟨⟨supply, tests⟩, hsupply, h⟩ := ok_of_bind h
    cases h
    exact .absent hnothing htype hsupply
  | present p =>
    obtain ⟨u, hnothing, h⟩ := ok_of_bind h
    obtain ⟨type, htype, h⟩ := ok_of_bind h
    obtain ⟨⟨supply, tests⟩, hsupply, h⟩ := ok_of_bind h
    cases h
    exact .present hnothing htype hsupply
  | every base require =>
    obtain ⟨u, hnothing, h⟩ := ok_of_bind h
    obtain ⟨type, htype, h⟩ := ok_of_bind h
    obtain ⟨⟨supply, tests⟩, hsupply, h⟩ := ok_of_bind h
    obtain ⟨required, hrequired, h⟩ := ok_of_bind h
    cases h
    exact .every hnothing htype hsupply hrequired
  | accumulate acc =>
    obtain ⟨u, hnothing, h⟩ := ok_of_bind h
    obtain ⟨type, htype, h⟩ := ok_of_bind h
    obtain ⟨v, hfold, h⟩ := ok_of_bind h
    obtain ⟨⟨supply, tests⟩, hsupply, h⟩ := ok_of_bind h
    simp only at h
    split at h
    · next operator operand hgiven =>
      obtain ⟨operand', hoperand, h⟩ := ok_of_bind h
      obtain ⟨having, hhaving, h⟩ := ok_of_bind h
      cases hhaving
      obtain ⟨scope₁, hscope, h⟩ := ok_of_bind h
      cases h
      exact .accumulate hnothing htype hfold hsupply (hgiven ▸ .some ⟨rfl, hoperand⟩) hscope
    · next hgiven =>
      obtain ⟨having, hhaving, h⟩ := ok_of_bind h
      cases hhaving
      obtain ⟨scope₁, hscope, h⟩ := ok_of_bind h
      cases h
      exact .accumulate hnothing htype hfold hsupply (hgiven ▸ .none) hscope
  | predicate p =>
    cases h
    exact .predicate p

/-- Only predicates are sketched as predicates. -/
theorem Element.predicate_of_sketch {types : Types} {scope scope' : Scope} {depth : Nat}
    {e : Element} {p : Predicate} {places : List (String × Place)}
    (h : e.sketch types scope depth = .ok (.predicate p places, scope')) : e = .predicate p := by
  cases e.sketched h with
  | predicate => rfl

theorem predicate_of_sketches {types : Types} {scope scope' : Scope} {depth : Nat}
    {branch : List Element} {steps : List Sketch} {p : Predicate} {places : List (String × Place)}
    (h : sketches types scope depth branch = .ok (steps, scope'))
    (hp : .predicate p places ∈ steps) : .predicate p ∈ branch := by
  induction branch generalizing scope depth steps with
  | nil =>
    cases h
    cases hp
  | cons e rest ih =>
    obtain ⟨⟨sketch, scope₁⟩, hsketch, h⟩ := ok_of_bind h
    obtain ⟨⟨others, scope₂⟩, hothers, h⟩ := ok_of_bind h
    cases h
    rcases List.mem_cons.1 hp with rfl | hp
    · exact List.mem_cons.2 (.inl (Element.predicate_of_sketch hsketch).symm)
    · exact List.mem_cons_of_mem e (ih hothers hp)

/-! ## Places in a network -/

namespace Network

/-- The memory for a supply, if one is asked for. -/
def supplied (net : Network) : Option Supply → AlphaId × Network
  | some supply => net.alphaFor supply.type supply.tests supply.window
  | none => (0, net)

/-- The node for a step after another node. -/
def follow (net : Network) (last : Option NodeId) (sketch : Sketch) : NodeId × Network :=
  (net.supplied sketch.supply?).2.nodeFor last (sketch.kind (net.supplied sketch.supply?).1)

/-- The nodes for steps, one after the other. -/
def followAll (net : Network) (last : Option NodeId) : List Sketch → Option NodeId × Network
  | [] => (last, net)
  | sketch :: rest => (net.follow last sketch).2.followAll (some (net.follow last sketch).1) rest

end Network

theorem JoinIndex.choose?_append_not (tests : List (Test Place)) (item : Test Place) :
    choose? (tests ++ [.not item]) = choose? tests := by
  rw [choose?, List.filterMap_append]
  simp only [List.filterMap_cons, Test.equalityPlace?, List.filterMap_nil, List.append_nil]
  rfl

namespace Growth

variable {types : Types}

theorem feed_eq (g : Growth) (type : FactType) (pattern : Pattern) :
    g.feed types type pattern = (pattern.supply types g.scope type).map fun s =>
      (Sketch.feed (g.net.supplied (some s.1)).1 s.2, (g.net.supplied (some s.1)).2) := by
  unfold Growth.feed Pattern.supply
  cases g.scope.tests .byDepth types type pattern.constraints <;> rfl

/-- The branch goes on by one step. -/
def follow (g : Growth) (sketch : Sketch) (scope : Scope) : Growth :=
  ⟨(g.net.follow g.last sketch).2, some (g.net.follow g.last sketch).1, g.depth + 1, scope⟩

/-- An element is sketched and then gets its place. -/
theorem addElement_eq (g : Growth) (e : Element) : g.addElement types e =
    (e.sketch types g.scope g.depth).map fun s => g.follow s.1 s.2 := by
  cases e with
  | pattern p =>
    simp only [addElement, Element.sketch, feed_eq, bind, Except.bind]
    rcases checkPattern types p with d | type
    · rfl
    dsimp only
    rcases p.supply types g.scope type with d | s
    · rfl
    dsimp only [Except.map]
    rcases g.scope.declarePattern p (g.depth + 1) with d | scope <;> rfl
  | absent p =>
    simp only [addElement, Element.sketch, feed_eq, bind, Except.bind]
    rcases checkBindsNothing .absence p with d | u
    · rfl
    dsimp only
    rcases checkPattern types p with d | type
    · rfl
    dsimp only
    rcases p.supply types g.scope type with d | s <;> rfl
  | present p =>
    simp only [addElement, Element.sketch, feed_eq, bind, Except.bind]
    rcases checkBindsNothing .absence p with d | u
    · rfl
    dsimp only
    rcases checkPattern types p with d | type
    · rfl
    dsimp only
    rcases p.supply types g.scope type with d | s <;> rfl
  | every base require =>
    simp only [addElement, Element.sketch, feed_eq, bind, Except.bind]
    rcases checkBindsNothing .universal base with d | u
    · rfl
    dsimp only
    rcases checkPattern types base with d | type
    · rfl
    dsimp only
    rcases base.supply types g.scope type with d | s
    · rfl
    dsimp only [Except.map]
    rcases g.scope.tests .byDepth types type require with d | required
    · rfl
    dsimp only [follow, Network.follow, Sketch.supply?, Sketch.kind, Sketch.feed]
    rw [JoinIndex.choose?_append_not]
    rfl
  | accumulate acc =>
    simp only [addElement, Element.sketch, feed_eq, bind, Except.bind]
    rcases checkBindsNothing .accumulate acc.source with d | u
    · rfl
    dsimp only
    rcases checkPattern types acc.source with d | type
    · rfl
    dsimp only
    rcases checkFold type acc.fold with d | u
    · rfl
    dsimp only
    rcases acc.source.supply types g.scope type with d | s
    · rfl
    dsimp only [Except.map]
    rcases acc.having with - | ⟨operator, operand⟩
    · dsimp only
      rcases g.scope.declare acc.result (.result (g.depth + 1)) with d | scope <;> rfl
    · dsimp only
      rcases g.scope.operand .byDepth types operand with d | operand
      · rfl
      dsimp only
      rcases g.scope.declare acc.result (.result (g.depth + 1)) with d | scope <;> rfl
  | predicate p => rfl

/-- A whole branch is sketched and then gets its place. -/
theorem foldlM_addElement (branch : List Element) (g : Growth) :
    branch.foldlM (addElement types) g =
      (sketches types g.scope g.depth branch).map fun s =>
        ⟨(g.net.followAll g.last s.1).2, (g.net.followAll g.last s.1).1, g.depth + branch.length,
          s.2⟩ := by
  induction branch generalizing g with
  | nil => rfl
  | cons e rest ih =>
    rw [List.foldlM_cons, addElement_eq, sketches]
    cases e.sketch types g.scope g.depth with
    | error d => rfl
    | ok s =>
      show rest.foldlM (addElement types) (g.follow s.1 s.2) = _
      rw [ih]
      show (sketches types s.2 (g.depth + 1) rest).map _ = _
      cases hrest : sketches types s.2 (g.depth + 1) rest with
      | error d => simp only [Except.bind, bind, hrest]; rfl
      | ok s' =>
        simp only [Except.bind, bind, hrest, List.length_cons]
        rw [Nat.add_comm rest.length 1, ← Nat.add_assoc]
        rfl

end Growth

/-- A branch of a rule is sketched; it defects as its sketch does, and otherwise gets its place. -/
theorem Network.addBranch_eq (net : Network) (types : Types) (rule : Nat) (branch : List Element) :
    net.addBranch types rule branch = (sketches types [] 0 branch).map fun s =>
      (net.followAll none s.1).2.addTerminal rule (net.followAll none s.1).1 s.2 := by
  unfold Network.addBranch
  rw [Growth.foldlM_addElement]
  cases sketches types [] 0 branch <;> rfl

end RuleNet
