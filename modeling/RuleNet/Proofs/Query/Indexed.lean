/-
  Plans look facts up only by fields that their memories are indexed by.

  * `PlanStep.source?`: where a step finds facts.
  * `Network.Indexes`: what a step looks up can be looked up.
  * `Network.WellFormed.indexes_compile`: so it is for every step of a compiled query.
  * `Declarations.indexes_build`: and for every query of a rule base, whatever its parameters.
-/
import RuleNet.Proofs.Query.Planned

namespace RuleNet

/-- Where a step finds facts, if it reads a memory. -/
def PlanStep.source? : PlanStep → Option Source
  | .each source _ _ => some source
  | .absent source => some source
  | .present source => some source
  | .accumulate source _ _ _ => some source
  | .predicate _ => none

/-- An outlined step reads the memory that it is given, and looks facts up as its outline says. -/
theorem Element.source?_outline {types : Types} {scope scope' : Scope} {depth : Nat} {e : Element}
    {outline : Outline} (h : e.outline types scope depth = .ok (outline, scope')) {a : AlphaId}
    {source : Source} (hs : (outline.step a).source? = some source) :
    source.alpha = a ∧ source.lookUp = outline.lookUp ∧ outline.supply? ≠ none := by
  cases e with
  | pattern p =>
    obtain ⟨⟨type, supply, tests⟩, -, h⟩ := ok_of_bind h
    obtain ⟨scope₁, -, h⟩ := ok_of_bind h
    cases h
    cases hs
    exact ⟨rfl, rfl, by simp [Outline.of]⟩
  | absent p =>
    obtain ⟨-, -, h⟩ := ok_of_bind h
    obtain ⟨⟨type, supply, tests⟩, -, h⟩ := ok_of_bind h
    cases h
    cases hs
    exact ⟨rfl, rfl, by simp [Outline.of]⟩
  | present p =>
    obtain ⟨-, -, h⟩ := ok_of_bind h
    obtain ⟨⟨type, supply, tests⟩, -, h⟩ := ok_of_bind h
    cases h
    cases hs
    exact ⟨rfl, rfl, by simp [Outline.of]⟩
  | every base require =>
    obtain ⟨-, -, h⟩ := ok_of_bind h
    obtain ⟨⟨type, supply, tests⟩, -, h⟩ := ok_of_bind h
    obtain ⟨required, -, h⟩ := ok_of_bind h
    cases h
    cases hs
    exact ⟨rfl, rfl, by simp [Outline.of]⟩
  | accumulate acc =>
    obtain ⟨-, -, h⟩ := ok_of_bind h
    obtain ⟨type, -, h⟩ := ok_of_bind h
    obtain ⟨-, -, h⟩ := ok_of_bind h
    obtain ⟨⟨type', supply, tests⟩, -, h⟩ := ok_of_bind h
    obtain ⟨having, h⟩ : ∃ having, (scope.declare acc.result (.result (depth + 1))).bind
        (fun scope => .ok (Outline.of supply tests fun source =>
          .accumulate source acc.fold acc.result having, scope)) = .ok (outline, scope') := by
      dsimp only at h
      split at h
      · obtain ⟨operand, -, h⟩ := ok_of_bind h
        exact ⟨_, h⟩
      · exact ⟨_, h⟩
    obtain ⟨scope₁, -, h⟩ := ok_of_bind h
    cases h
    cases hs
    exact ⟨rfl, rfl, by simp [Outline.of]⟩
  | predicate p =>
    cases h
    cases hs

/-- Every outline of a branch comes from an element. -/
theorem mem_outlines {types : Types} {branch : List Element} {scope : Scope} {depth : Nat}
    {found : List Outline} (h : outlines types scope depth branch = .ok found) :
    ∀ outline ∈ found, ∃ e scope scope' depth,
      Element.outline types scope depth e = .ok (outline, scope') := by
  induction branch generalizing scope depth found with
  | nil =>
    cases h
    simp
  | cons e rest ih =>
    obtain ⟨⟨first, scope'⟩, hfirst, h⟩ := ok_of_bind h
    obtain ⟨others, hothers, h⟩ := ok_of_bind h
    cases h
    intro outline hmem
    rcases List.mem_cons.1 hmem with rfl | hmem
    · exact ⟨e, scope, scope', depth, hfirst⟩
    · exact ih hothers outline hmem

namespace Network

variable {net net' : Network} {types : Types}

/-- What a step looks up can be looked up. -/
def Indexes (net : Network) (step : PlanStep) : Prop :=
  ∀ source, step.source? = some source → ∀ field reference,
    source.lookUp = some (field, reference) → net.Findable source.alpha field

/-- All steps of a plan look up what can be looked up. -/
def IndexesAll (net : Network) (plan : Plan) : Prop :=
  ∀ steps ∈ plan.branches, ∀ step ∈ steps, net.Indexes step

theorem Indexes.extend (h : net.Extends net') {step : PlanStep} (hi : net.Indexes step) :
    net'.Indexes step :=
  fun source hs field reference hl => (hi source hs field reference hl).extend h

theorem IndexesAll.extend (h : net.Extends net') {plan : Plan} (hi : net.IndexesAll plan) :
    net'.IndexesAll plan :=
  fun steps hsteps step hstep => (hi steps hsteps step hstep).extend h

/-- An outlined step looks up what its outline has asked for. -/
theorem Lays.indexes {e : Element} {outline : Outline} {scope scope' : Scope} {depth : Nat}
    {step : PlanStep} (h : e.outline types scope depth = .ok (outline, scope'))
    (hl : net.Lays outline step) : net.Indexes step := by
  obtain ⟨b, rfl, hb⟩ := hl
  intro source hs field reference hlookUp
  obtain ⟨halpha, hsame, hsupply⟩ := e.source?_outline h hs
  obtain ⟨supply, hsupply⟩ := Option.ne_none_iff_exists'.1 hsupply
  rw [halpha]
  exact (hb supply hsupply).2 field reference (hsame ▸ hlookUp)

/-- The steps of a branch look up what can be looked up. -/
theorem WellFormed.indexes_compileBranch (W : net.WellFormed) {parameters : List String}
    {branch : List Element} {steps : List PlanStep}
    (h : Plan.compileBranch types parameters net branch = .ok (steps, net')) :
    net.Furnishes net' ∧ ∀ step ∈ steps, net'.Indexes step := by
  obtain ⟨scope, -, h⟩ := ok_of_bind h
  obtain ⟨d, hd, h⟩ := ok_of_bind h
  cases h
  have hfold := @Drafting.foldlM_addElement types branch ⟨net, 0, scope, []⟩
  rw [hd] at hfold
  cases hfound : outlines types scope 0 branch with
  | error e =>
    simp only [hfound] at hfold
    cases hfold
  | ok found =>
    simp only [hfound] at hfold
    obtain ⟨hsteps, hnet⟩ := Prod.mk.inj (Except.ok.inj hfold)
    obtain ⟨F, hlays⟩ := W.lays_placeAll found
    rw [List.nil_append] at hsteps
    rw [hsteps, hnet]
    refine ⟨F, fun step hstep => ?_⟩
    obtain ⟨outline, hmem, hlay⟩ := forall₂_mem_right hlays hstep
    obtain ⟨e, scope, scope', depth, he⟩ := mem_outlines hfound outline hmem
    exact hlay.indexes he

theorem WellFormed.indexes_compileBranches (W : net.WellFormed) {parameters : List String}
    {branches : Branches} {plans : List (List PlanStep)}
    (h : Plan.compileBranches types parameters net branches = .ok (plans, net')) :
    net.Furnishes net' ∧ ∀ steps ∈ plans, ∀ step ∈ steps, net'.Indexes step := by
  induction branches generalizing net plans with
  | nil =>
    cases h
    exact ⟨.refl _, by simp⟩
  | cons branch rest ih =>
    obtain ⟨⟨steps, net₁⟩, hbranch, h⟩ := ok_of_bind h
    obtain ⟨⟨others, net₂⟩, hrest, h⟩ := ok_of_bind h
    cases h
    obtain ⟨F, hsteps⟩ := W.indexes_compileBranch hbranch
    obtain ⟨F', hothers⟩ := ih (F.wellFormed W) hrest
    refine ⟨F.trans F', fun found hfound step hstep => ?_⟩
    rcases List.mem_cons.1 hfound with rfl | hmem
    · exact (hsteps step hstep).extend F'.stores.extends
    · exact hothers found hmem step hstep

/-- The steps of a query look up what can be looked up. -/
theorem WellFormed.indexes_compile (W : net.WellFormed) {query : Query} {plan : Plan}
    (h : Plan.compile types net query = .ok (plan, net')) :
    net.Furnishes net' ∧ net'.IndexesAll plan := by
  obtain ⟨branches, -, h⟩ := ok_of_bind h
  obtain ⟨⟨plans, net₁⟩, hplans, h⟩ := ok_of_bind h
  cases h
  exact W.indexes_compileBranches hplans

end Network

/-! ## Assembly -/

namespace Assembly

/-- The network is well-formed, and all plans look up what can be looked up. -/
structure Indexed (a : Assembly) : Prop where
  wellFormed : a.network.WellFormed
  indexes : ∀ {name plan}, a.queries.find? name = some plan → a.network.IndexesAll plan

theorem Indexed.addQuery {a : Assembly} (h : a.Indexed) (query : Query) :
    (a.addQuery query).Indexed := by
  refine ⟨(a.furnishes_addQuery query).wellFormed h.wellFormed, fun {name plan} hplan => ?_⟩
  have hold : a.queries.find? name = some plan →
      (a.addQuery query).network.IndexesAll plan := fun hplan =>
    (h.indexes hplan).extend (a.furnishes_addQuery query).stores.extends
  revert hold hplan
  unfold Assembly.addQuery
  split
  · exact fun hplan hold => hold hplan
  · split
    · next plan' network hcompile =>
      intro hplan hold
      dsimp only at hplan hold ⊢
      rw [Entries.find?_insert] at hplan
      split at hplan
      · cases hplan
        exact (h.wellFormed.indexes_compile hcompile).2
      · exact hold hplan
    · exact fun hplan hold => hold hplan

/-- No plan is there before the first query. -/
theorem queries_addRules (types : List FactType) (rules : List (Rule × Nat)) :
    (rules.foldl (fun a rule => Assembly.addRule a rule.1 rule.2)
      (types.foldl addType .empty)).queries = [] := by
  have htypes : (types.foldl addType .empty).queries = [] :=
    List.foldlRecOn types addType (motive := fun a => a.queries = []) rfl fun a h type _ => by
      unfold addType
      split <;> exact h
  refine List.foldlRecOn rules _ (motive := fun a : Assembly => a.queries = []) htypes
    fun a h rule _ => ?_
  unfold addRule
  dsimp only
  split <;> exact h

end Assembly

/-- Every plan of a rule base looks facts up by fields that its memories are indexed by. -/
theorem Declarations.indexes_build {declarations : Declarations} {base : RuleBase}
    (h : declarations.build = .ok base) {name : String} {plan : Plan}
    (hplan : base.query? name = some plan) : base.network.IndexesAll plan := by
  obtain ⟨-, rfl⟩ := build_eq h
  have hrules := declarations.wellFormed_rules
  have hstart : (declarations.rules.zipIdx.foldl (fun a rule => Assembly.addRule a rule.1 rule.2)
      (declarations.types.foldl Assembly.addType .empty)).Indexed :=
    ⟨hrules, fun {name plan} hfind => by rw [Assembly.queries_addRules] at hfind; cases hfind⟩
  have hall : declarations.assemble.Indexed :=
    List.foldlRecOn declarations.queries Assembly.addQuery (motive := Assembly.Indexed) hstart
      fun a h query _ => h.addQuery query
  exact (hall.indexes hplan).extend (Network.Furnishes.finish _).stores.extends

end RuleNet
