/-
  A condition compiles as the body of a rule exactly where it compiles as that of a query.

  The two compilers take constraints in different orders and name places differently, but they ask
  for the same memories by the same tests.

  * `Twin`, `Twins`: the steps of a rule and of a query that do the same.
  * `Element.outline_of_sketch`, `Element.sketch_of_outline`: a step of the one is a step of the
    other.
  * `compiles_iff`: a condition without defects for a rule has none for a query, and conversely.
-/
import RuleNet.Proofs.Query.Outline
import RuleNet.Proofs.Query.Resolve

namespace RuleNet

/-! ## Tests in parts -/

namespace Scope

variable {ρ : Type} {address : Addressing ρ} {types : Types} {scope : Scope} {type : FactType}

theorem tests_cons_eq {item : Constraint} {rest : List Constraint} {ts : List (Test ρ)} :
    scope.tests address types type (item :: rest) = .ok ts ↔
      ∃ t others, scope.test address types type item = .ok t ∧
        scope.tests address types type rest = .ok others ∧ ts = t :: others := by
  rw [tests]
  constructor
  · intro h
    obtain ⟨t, ht, h⟩ := ok_of_bind h
    obtain ⟨others, hothers, h⟩ := ok_of_bind h
    cases h
    exact ⟨t, others, ht, hothers, rfl⟩
  · rintro ⟨t, others, ht, hothers, rfl⟩
    rw [ht, hothers]
    rfl

/-- Some of the constraints resolve to their own tests. -/
theorem tests_filter (P : Constraint → Bool) {items : List Constraint} {ts : List (Test ρ)}
    (h : scope.tests address types type items = .ok ts) :
    scope.tests address types type (items.filter P) =
      .ok (((items.zip ts).filter fun item => P item.1).map Prod.snd) := by
  induction items generalizing ts with
  | nil => rfl
  | cons item rest ih =>
    obtain ⟨t, others, ht, hothers, rfl⟩ := tests_cons_eq.1 h
    rw [List.zip_cons_cons, List.filter_cons, List.filter_cons]
    split
    · exact tests_cons_eq.2 ⟨t, _, ht, ih hothers, rfl⟩
    · exact ih hothers

/-- Constraints resolve if they do in two parts. -/
theorem tests_of_parts (P : Constraint → Bool) {items : List Constraint} {ts ts' : List (Test ρ)}
    (h : scope.tests address types type (items.filter P) = .ok ts)
    (h' : scope.tests address types type (items.filter fun c => !P c) = .ok ts') :
    ∃ all, scope.tests address types type items = .ok all := by
  induction items generalizing ts ts' with
  | nil => exact ⟨[], by rw [tests]⟩
  | cons item rest ih =>
    rw [List.filter_cons] at h h'
    cases hp : P item
    · rw [hp, if_neg Bool.false_ne_true] at h
      rw [hp, if_pos (by rfl)] at h'
      obtain ⟨t, others, ht, hothers, -⟩ := tests_cons_eq.1 h'
      obtain ⟨all, hall⟩ := ih h hothers
      exact ⟨_, tests_cons_eq.2 ⟨t, all, ht, hall, rfl⟩⟩
    · rw [hp, if_pos rfl] at h
      rw [hp, if_neg (by simp)] at h'
      obtain ⟨t, others, ht, hothers, -⟩ := tests_cons_eq.1 h
      obtain ⟨all, hall⟩ := ih hothers h'
      exact ⟨_, tests_cons_eq.2 ⟨t, all, ht, hall, rfl⟩⟩

/-- Constant constraints resolve in every scope as they do in none. -/
theorem tests_constants (scope : Scope) (items : List Constraint) :
    scope.tests address types type (items.filter (·.isConstant)) =
      Scope.tests address types [] type (items.filter (·.isConstant)) := by
  refine tests_constant address types scope [] type _ ?_
  induction items with
  | nil => rfl
  | cons item rest ih =>
    rw [List.filter_cons]
    split
    · next hc =>
      rw [Constraint.isConstant, List.isEmpty_iff] at hc
      rw [Constraint.readVarsOfAll, hc, ih]
      rfl
    · exact ih

end Scope

/-! ## Patterns -/

section
variable {types : Types} {scope : Scope} {depth : Nat} (R : scope.Regular depth) {p : Pattern}
  {type : FactType} {supply : Supply}
include R

theorem Pattern.supply_of_outline {tests : List (Test Reference)}
    (h : p.outline types scope = .ok (type, supply, tests)) :
    checkPattern types p = .ok type ∧
      p.supply types scope type = .ok (supply, Test.mapItems scope.refersTo tests) := by
  obtain ⟨type', htype, h⟩ := ok_of_bind h
  obtain ⟨constant, hconstant, h⟩ := ok_of_bind h
  obtain ⟨tests', htests, h⟩ := ok_of_bind h
  cases h
  refine ⟨htype, ?_⟩
  rw [← Scope.tests_constants scope] at hconstant
  have hjoined : scope.tests .byDepth types type (p.constraints.filter fun c => !c.isConstant) =
      .ok (Test.mapItems scope.refersTo tests) := by
    rw [Scope.tests_byDepth R, htests]
    rfl
  obtain ⟨all, hall⟩ := Scope.tests_of_parts (·.isConstant) hconstant hjoined
  have hfirst := Scope.tests_filter (·.isConstant) hall
  have hsecond := Scope.tests_filter (fun c => !c.isConstant) hall
  rw [hconstant] at hfirst
  rw [hjoined] at hsecond
  rw [Pattern.supply, hall]
  simp only [bind, Except.bind, List.partition_eq_filter_filter]
  rw [Except.ok.inj hfirst, Except.ok.inj hsecond]
  rfl

theorem Pattern.outline_of_supply (htype : checkPattern types p = .ok type)
    {tests : List (Test Place)} (h : p.supply types scope type = .ok (supply, tests)) :
    ∃ tests', p.outline types scope = .ok (type, supply, tests') ∧
      tests = Test.mapItems scope.refersTo tests' := by
  obtain ⟨all, hall, -⟩ := ok_of_bind h
  have hconstant := Scope.tests_filter (·.isConstant) hall
  rw [Scope.tests_constants scope] at hconstant
  have hjoined := Scope.tests_filter (fun c => !c.isConstant) hall
  rw [Scope.tests_byDepth R] at hjoined
  cases htests : scope.tests .byName types type (p.constraints.filter fun c => !c.isConstant) with
  | error d => rw [htests] at hjoined; cases hjoined
  | ok tests' =>
    obtain ⟨supply', houtline⟩ : ∃ supply', p.outline types scope = .ok (type, supply', tests') := by
      rw [Pattern.outline, htype]
      simp only [bind, Except.bind, hconstant, htests]
      exact ⟨_, rfl⟩
    obtain ⟨-, hsupply⟩ := Pattern.supply_of_outline R houtline
    cases h.symm.trans hsupply
    exact ⟨tests', houtline, rfl⟩

end

/-! ## Steps -/

theorem Source.lookUpFor_append_not (tests : List (Test Reference)) (item : Test Reference) :
    lookUpFor (tests ++ [.not item]) = lookUpFor tests := by
  rw [lookUpFor, lookUpFor, List.filterMap_append]
  simp only [List.filterMap_cons, Test.equalityPlace?, List.filterMap_nil, List.append_nil]

/-- A step that asks for the absence of what violates requirements. -/
theorem Outline.of_violating (supply : Supply) (tests : List (Test Reference))
    (required : List (Test Reference)) :
    (Outline.of supply tests fun source =>
      .absent { source with tests := source.tests ++ [.not (.all required)] }) =
    .of supply (tests ++ [.not (.all required)]) .absent := by
  simp only [Outline.of, Outline.source, Source.lookUpFor_append_not]

/-- The steps of a rule and of a query that do the same after the same steps. -/
inductive Twin (scope : Scope) (depth : Nat) : Scope → Sketch → Outline → Prop
  | each (supply : Supply) (tests : List (Test Reference)) (p : Pattern) {scope' : Scope}
    (h : scope.declarePattern p (depth + 1) = .ok scope') :
    Twin scope depth scope' (.join supply (Test.mapItems scope.refersTo tests))
      (.of supply tests fun source => .each source p.factVar p.fieldVars)
  | absent (supply : Supply) (tests : List (Test Reference)) :
    Twin scope depth scope (.absent supply (Test.mapItems scope.refersTo tests))
      (.of supply tests .absent)
  | present (supply : Supply) (tests : List (Test Reference)) :
    Twin scope depth scope (.present supply (Test.mapItems scope.refersTo tests))
      (.of supply tests .present)
  | accumulate (supply : Supply) (tests : List (Test Reference)) (fold : Fold) (result : String)
    (having : Option (Operator × TestOperand Reference)) {scope' : Scope}
    (h : scope.declare result (.result (depth + 1)) = .ok scope') :
    Twin scope depth scope'
      (.accumulate supply (Test.mapItems scope.refersTo tests) fold
        (having.map fun condition => (condition.1, condition.2.map scope.refersTo)))
      (.of supply tests fun source => .accumulate source fold result having)
  | predicate (p : Predicate) :
    Twin scope depth scope (.predicate p scope.places) ⟨none, none, fun _ => .predicate p⟩

section
variable {types : Types} {scope scope' : Scope} {depth : Nat}

/-- What a pattern binds keeps a scope regular. -/
theorem Scope.Regular.declarePattern (R : scope.Regular depth) {p : Pattern}
    (h : scope.declarePattern p (depth + 1) = .ok scope') : scope'.Regular (depth + 1) := by
  have hfields : ∀ {fields : List (String × String)} {scope scope' : Scope},
      scope.Regular (depth + 1) → fields.foldlM (fun (scope : Scope) (var : String × String) =>
        scope.declare var.1 (.field (depth + 1) var.2)) scope = .ok scope' →
      scope'.Regular (depth + 1) := fun R hs =>
    foldlM_ok (P := fun scope : Scope => scope.Regular (depth + 1))
      (fun scope var scope' _ R hs => R.declare (Nat.le_refl _) hs) R hs
  have R' := R.mono (Nat.le_succ depth)
  unfold Scope.declarePattern at h
  split at h
  · obtain ⟨scope₁, hfact, h⟩ := ok_of_bind h
    exact hfields (R'.declare (Nat.le_refl _) hfact) h
  · exact hfields R' h

theorem Twin.regular {sketch : Sketch} {outline : Outline} (R : scope.Regular depth)
    (h : Twin scope depth scope' sketch outline) : scope'.Regular (depth + 1) := by
  cases h with
  | each supply tests p h => exact R.declarePattern h
  | accumulate supply tests fold result having h =>
    exact (R.mono (Nat.le_succ depth)).declare (Nat.le_refl _) h
  | absent => exact R.mono (Nat.le_succ depth)
  | present => exact R.mono (Nat.le_succ depth)
  | predicate => exact R.mono (Nat.le_succ depth)

/-- A step of a query is a step of a rule. -/
theorem Element.sketch_of_outline (R : scope.Regular depth) {e : Element} {outline : Outline}
    (h : e.outline types scope depth = .ok (outline, scope')) :
    ∃ sketch, e.sketch types scope depth = .ok (sketch, scope') ∧
      Twin scope depth scope' sketch outline := by
  cases e with
  | pattern p =>
    obtain ⟨⟨type, supply, tests⟩, hp, h⟩ := ok_of_bind h
    obtain ⟨scope₁, hscope, h⟩ := ok_of_bind h
    cases h
    obtain ⟨htype, hsupply⟩ := Pattern.supply_of_outline R hp
    refine ⟨_, ?_, .each supply tests p hscope⟩
    simp only [sketch, htype, hsupply, hscope, bind, Except.bind]
  | absent p =>
    obtain ⟨u, hnothing, h⟩ := ok_of_bind h
    obtain ⟨⟨type, supply, tests⟩, hp, h⟩ := ok_of_bind h
    cases h
    obtain ⟨htype, hsupply⟩ := Pattern.supply_of_outline R hp
    refine ⟨_, ?_, .absent supply tests⟩
    simp only [sketch, hnothing, htype, hsupply, bind, Except.bind]
  | present p =>
    obtain ⟨u, hnothing, h⟩ := ok_of_bind h
    obtain ⟨⟨type, supply, tests⟩, hp, h⟩ := ok_of_bind h
    cases h
    obtain ⟨htype, hsupply⟩ := Pattern.supply_of_outline R hp
    refine ⟨_, ?_, .present supply tests⟩
    simp only [sketch, hnothing, htype, hsupply, bind, Except.bind]
  | every base require =>
    obtain ⟨u, hnothing, h⟩ := ok_of_bind h
    obtain ⟨⟨type, supply, tests⟩, hp, h⟩ := ok_of_bind h
    obtain ⟨required, hrequired, h⟩ := ok_of_bind h
    cases h
    obtain ⟨htype, hsupply⟩ := Pattern.supply_of_outline R hp
    have hrequired' : scope.tests .byDepth types type require =
        .ok (Test.mapItems scope.refersTo required) := by
      rw [Scope.tests_byDepth R, hrequired]
      rfl
    rw [Outline.of_violating]
    refine ⟨_, ?_, .absent supply (tests ++ [.not (.all required)])⟩
    rw [Test.mapItems_append]
    simp only [sketch, hnothing, htype, hsupply, hrequired', bind, Except.bind]
    rfl
  | accumulate acc =>
    obtain ⟨u, hnothing, h⟩ := ok_of_bind h
    obtain ⟨type, htype, h⟩ := ok_of_bind h
    obtain ⟨v, hfold, h⟩ := ok_of_bind h
    obtain ⟨⟨type', supply, tests⟩, hp, h⟩ := ok_of_bind h
    obtain ⟨htype', hsupply⟩ := Pattern.supply_of_outline R hp
    cases htype.symm.trans htype'
    simp only at h
    split at h
    · next operator operand hhaving =>
      obtain ⟨operand', hoperand, h⟩ := ok_of_bind h
      obtain ⟨given, hgiven, h⟩ := ok_of_bind h
      cases hgiven
      obtain ⟨scope₁, hscope, h⟩ := ok_of_bind h
      cases h
      have hoperand' : scope.operand .byDepth types operand =
          .ok (operand'.map scope.refersTo) := by
        rw [Scope.operand_byDepth R, hoperand]
        rfl
      refine ⟨_, ?_, .accumulate supply tests acc.fold acc.result (some (operator, operand')) hscope⟩
      simp only [sketch, hnothing, htype, hfold, hsupply, hhaving, hoperand', hscope, bind,
        Except.bind, Option.map_some]
    · next hhaving =>
      obtain ⟨given, hgiven, h⟩ := ok_of_bind h
      cases hgiven
      obtain ⟨scope₁, hscope, h⟩ := ok_of_bind h
      cases h
      refine ⟨_, ?_, .accumulate supply tests acc.fold acc.result none hscope⟩
      simp only [sketch, hnothing, htype, hfold, hsupply, hhaving, hscope, bind, Except.bind,
        Option.map_none]
  | predicate p =>
    cases h
    exact ⟨_, rfl, .predicate p⟩

/-- A step of a rule is a step of a query. -/
theorem Element.outline_of_sketch (R : scope.Regular depth) {e : Element} {sketch : Sketch}
    (h : e.sketch types scope depth = .ok (sketch, scope')) :
    ∃ outline, e.outline types scope depth = .ok (outline, scope') := by
  cases e.sketched h with
  | pattern htype hsupply hscope =>
    obtain ⟨tests', houtline, -⟩ := Pattern.outline_of_supply R htype hsupply
    exact ⟨_, by simp only [outline, houtline, hscope, bind, Except.bind]; rfl⟩
  | absent hnothing htype hsupply | present hnothing htype hsupply =>
    obtain ⟨tests', houtline, -⟩ := Pattern.outline_of_supply R htype hsupply
    exact ⟨_, by simp only [outline, hnothing, houtline, bind, Except.bind]; rfl⟩
  | @every _ require type _ _ _ hnothing htype hsupply hrequired =>
    obtain ⟨tests', houtline, -⟩ := Pattern.outline_of_supply R htype hsupply
    rw [Scope.tests_byDepth R] at hrequired
    cases hnamed : scope.tests .byName types type require with
    | error d => rw [hnamed] at hrequired; cases hrequired
    | ok named => exact ⟨_, by simp only [outline, hnothing, houtline, hnamed, bind, Except.bind]; rfl⟩
  | @accumulate acc _ _ _ _ _ hnothing htype hfold hsupply hhaving hscope =>
    obtain ⟨tests', houtline, -⟩ := Pattern.outline_of_supply R htype hsupply
    cases hgiven : acc.having with
    | none =>
      exact ⟨_, by
        simp only [outline, hnothing, htype, hfold, houtline, hgiven, hscope, bind, Except.bind]
        rfl⟩
    | some condition =>
      obtain ⟨operator, operand⟩ := condition
      rw [hgiven] at hhaving
      obtain ⟨-, hoperand⟩ | _ := hhaving
      rw [Scope.operand_byDepth R] at hoperand
      cases hnamed : scope.operand .byName types operand with
      | error d => rw [hnamed] at hoperand; cases hoperand
      | ok named =>
        exact ⟨_, by
          simp only [outline, hnothing, htype, hfold, houtline, hgiven, hnamed, hscope, bind,
            Except.bind]; rfl⟩
  | predicate p => exact ⟨_, rfl⟩

/-! ## Branches -/

/-- The steps of a branch in a rule and in a query. -/
inductive Twins : Scope → Nat → Scope → List Sketch → List Outline → Prop
  | nil (scope : Scope) (depth : Nat) : Twins scope depth scope [] []
  | cons {scope scope₁ scope₂ : Scope} {depth : Nat} {sketch : Sketch} {outline : Outline}
    {sketches : List Sketch} {outlines : List Outline}
    (h : Twin scope depth scope₁ sketch outline)
    (rest : Twins scope₁ (depth + 1) scope₂ sketches outlines) :
    Twins scope depth scope₂ (sketch :: sketches) (outline :: outlines)

theorem sketches_of_outlines (R : scope.Regular depth) {branch : List Element}
    {found : List Outline} (h : outlines types scope depth branch = .ok found) :
    ∃ steps scope', sketches types scope depth branch = .ok (steps, scope') ∧
      Twins scope depth scope' steps found := by
  induction branch generalizing scope depth found with
  | nil =>
    cases h
    exact ⟨[], scope, rfl, .nil scope depth⟩
  | cons e rest ih =>
    obtain ⟨⟨outline, scope₁⟩, hfirst, h⟩ := ok_of_bind h
    obtain ⟨others, hothers, h⟩ := ok_of_bind h
    cases h
    obtain ⟨sketch, hsketch, htwin⟩ := Element.sketch_of_outline R hfirst
    obtain ⟨steps, scope₂, hsteps, htwins⟩ := ih (htwin.regular R) hothers
    refine ⟨_, scope₂, ?_, .cons htwin htwins⟩
    simp only [sketches, hsketch, hsteps, bind, Except.bind]

theorem outlines_of_sketches (R : scope.Regular depth) {branch : List Element}
    {steps : List Sketch} (h : sketches types scope depth branch = .ok (steps, scope')) :
    ∃ found, outlines types scope depth branch = .ok found := by
  induction branch generalizing scope depth steps with
  | nil => exact ⟨[], rfl⟩
  | cons e rest ih =>
    obtain ⟨⟨sketch, scope₁⟩, hfirst, h⟩ := ok_of_bind h
    obtain ⟨⟨others, scope₂⟩, hothers, h⟩ := ok_of_bind h
    cases h
    obtain ⟨outline, houtline⟩ := Element.outline_of_sketch R hfirst
    obtain ⟨sketch', hsketch', htwin⟩ := Element.sketch_of_outline R houtline
    obtain ⟨found, hfound⟩ := ih (htwin.regular R) hothers
    exact ⟨outline :: found, by simp only [outlines, houtline, hfound, bind, Except.bind]⟩

end

/-! ## Conditions -/

theorem Network.addBranches_ok_iff {types : Types} {rule : Nat} {branches : Branches}
    {net : Network} :
    (∃ net', branches.foldlM (fun net branch => net.addBranch types rule branch) net = .ok net') ↔
      ∀ branch ∈ branches, ∃ found, sketches types [] 0 branch = .ok found := by
  induction branches generalizing net with
  | nil => exact iff_of_true ⟨net, rfl⟩ fun branch hb => by cases hb
  | cons branch rest ih =>
    rw [List.forall_mem_cons, List.foldlM_cons, addBranch_eq]
    cases sketches types [] 0 branch with
    | error d =>
      refine iff_of_false ?_ ?_
      · rintro ⟨net', h⟩
        cases h
      · rintro ⟨⟨found, hfound⟩, -⟩
        cases hfound
    | ok found => exact ih.trans (and_iff_right ⟨found, rfl⟩).symm

theorem Plan.compileBranches_ok_iff {types : Types} {branches : Branches} {net : Network} :
    (∃ compiled, compileBranches types [] net branches = .ok compiled) ↔
      ∀ branch ∈ branches, ∃ found, outlines types [] 0 branch = .ok found := by
  induction branches generalizing net with
  | nil => exact iff_of_true ⟨_, rfl⟩ fun branch hb => by cases hb
  | cons branch rest ih =>
    rw [List.forall_mem_cons, compileBranches, compileBranch_eq]
    cases outlines types [] 0 branch with
    | error d =>
      refine iff_of_false ?_ ?_
      · rintro ⟨compiled, h⟩
        cases h
      · rintro ⟨⟨found, hfound⟩, -⟩
        cases hfound
    | ok found =>
      refine Iff.trans ?_ (and_iff_right ⟨found, rfl⟩).symm
      rw [← @ih (net.placeAll found).2]
      constructor
      · rintro ⟨compiled, h⟩
        obtain ⟨placed, hplaced, h⟩ := ok_of_bind h
        cases hplaced
        obtain ⟨others, hothers, -⟩ := ok_of_bind h
        exact ⟨others, hothers⟩
      · rintro ⟨others, hothers⟩
        exact ⟨_, by simp only [Except.map, bind, Except.bind, hothers]; rfl⟩

/-- A condition compiles as the body of a rule exactly where it compiles as the body of a query
    without parameters, whatever has been compiled before. -/
theorem compiles_iff (types : Types) (net net' : Network) (place : Nat) (name : String)
    (condition : Condition) :
    (∃ compiled, net.addRule types place condition = .ok compiled) ↔
      ∃ compiled, Plan.compile types net' ⟨name, [], condition⟩ = .ok compiled := by
  unfold Network.addRule Plan.compile
  dsimp only
  cases condition.normalize with
  | error d =>
    refine iff_of_false ?_ ?_
    all_goals
      rintro ⟨compiled, h⟩
      cases h
  | ok branches =>
    have hrule := @Network.addBranches_ok_iff types place branches net
    have hquery := @Plan.compileBranches_ok_iff types branches net'
    have hboth : (∀ branch ∈ branches, ∃ found, sketches types [] 0 branch = .ok found) ↔
        ∀ branch ∈ branches, ∃ found, outlines types [] 0 branch = .ok found := by
      refine forall_congr' fun branch => imp_congr_right fun _ => ⟨?_, ?_⟩
      · rintro ⟨⟨steps, scope⟩, hsteps⟩
        exact outlines_of_sketches (Scope.regular_nil 0) hsteps
      · rintro ⟨found, hfound⟩
        obtain ⟨steps, scope, hsteps, -⟩ := sketches_of_outlines (Scope.regular_nil 0) hfound
        exact ⟨_, hsteps⟩
    refine hrule.trans (hboth.trans (hquery.symm.trans ?_))
    constructor
    · rintro ⟨compiled, h⟩
      exact ⟨_, by simp only [bind, Except.bind, h]; rfl⟩
    · rintro ⟨compiled, h⟩
      obtain ⟨branches', hbranches', h⟩ := ok_of_bind h
      cases hbranches'
      obtain ⟨steps, hsteps, -⟩ := ok_of_bind h
      exact ⟨steps, hsteps⟩

end RuleNet
