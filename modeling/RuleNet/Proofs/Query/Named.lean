/-
  What the rows of a query tell of the facts that were chosen.

  A row keeps the facts that have a name, by name. The match that the same steps lead to keeps all of
  them, in the order of the patterns.

  * `namedFacts`: the facts that have a name.
  * `Element.factVar?`, `Element.result?`: what the patterns and accumulates of a branch name.
  * `QueryView.Traced`: a match has gone on as a row has.
  * `QueryView.Leads.traced`: so it does wherever steps lead.
-/
import RuleNet.Proofs.Matching.Granted
import RuleNet.Proofs.Query.Cursor
import RuleNet.Proofs.Query.Planned

namespace RuleNet

open Matching (Extension)

/-! ## Names -/

/-- The facts that have a name, with their names. -/
def namedFacts (vars : List (Option String)) (chosen : List Handle) : Entries Handle :=
  (vars.zip chosen).filterMap fun (var, h) => var.map (·, h)

/-- The name of the fact that a step chooses, if it chooses one. -/
def PlanStep.factVar? : PlanStep → Option (Option String)
  | .each _ factVar _ => some factVar
  | _ => none

/-- The name of the value that a step folds facts to. -/
def PlanStep.result? : PlanStep → Option String
  | .accumulate _ _ result _ => some result
  | _ => none

theorem PlanStep.factVars_cons (step : PlanStep) (rest : List PlanStep) :
    (step :: rest).filterMap factVar? = step.factVar?.toList ++ rest.filterMap factVar? := by
  rw [List.filterMap_cons]
  cases step.factVar? <;> rfl

/-- The name of the fact that an element of a branch matches, if it is a pattern. -/
def Element.factVar? : Element → Option (Option String)
  | .pattern p => some p.factVar
  | _ => none

/-- The name of the value that an element of a branch folds facts to. -/
def Element.result? : Element → Option String
  | .accumulate acc => some acc.result
  | _ => none

/-- The step of an element gives the same names. -/
theorem Element.names_of_outline {types : Types} {scope scope' : Scope} {depth : Nat} {e : Element}
    {outline : Outline} (h : e.outline types scope depth = .ok (outline, scope')) (a : AlphaId) :
    (outline.step a).factVar? = e.factVar? ∧ (outline.step a).result? = e.result? := by
  cases e with
  | pattern p =>
    obtain ⟨⟨type, supply, tests⟩, -, h⟩ := ok_of_bind h
    obtain ⟨scope₁, -, h⟩ := ok_of_bind h
    cases h
    exact ⟨rfl, rfl⟩
  | absent p | present p =>
    obtain ⟨-, -, h⟩ := ok_of_bind h
    obtain ⟨⟨type, supply, tests⟩, -, h⟩ := ok_of_bind h
    cases h
    exact ⟨rfl, rfl⟩
  | every base require =>
    obtain ⟨-, -, h⟩ := ok_of_bind h
    obtain ⟨⟨type, supply, tests⟩, -, h⟩ := ok_of_bind h
    obtain ⟨required, -, h⟩ := ok_of_bind h
    cases h
    exact ⟨rfl, rfl⟩
  | accumulate acc =>
    obtain ⟨-, -, h⟩ := ok_of_bind h
    obtain ⟨type, -, h⟩ := ok_of_bind h
    obtain ⟨-, -, h⟩ := ok_of_bind h
    obtain ⟨⟨type, supply, tests⟩, -, h⟩ := ok_of_bind h
    simp only at h
    split at h
    · obtain ⟨operand, -, h⟩ := ok_of_bind h
      obtain ⟨having, -, h⟩ := ok_of_bind h
      obtain ⟨scope₁, -, h⟩ := ok_of_bind h
      cases h
      exact ⟨rfl, rfl⟩
    · obtain ⟨having, -, h⟩ := ok_of_bind h
      obtain ⟨scope₁, -, h⟩ := ok_of_bind h
      cases h
      exact ⟨rfl, rfl⟩
  | predicate p =>
    cases h
    exact ⟨rfl, rfl⟩

/-- The steps of a branch give the same names. -/
theorem names_of_outlines {net : Network} {types : Types} {scope : Scope} {depth : Nat}
    {branch : List Element} {found : List Outline} {steps : List PlanStep}
    (h : outlines types scope depth branch = .ok found) (hlays : List.Forall₂ net.Lays found steps) :
    steps.filterMap PlanStep.factVar? = branch.filterMap Element.factVar? ∧
      steps.filterMap PlanStep.result? = branch.filterMap Element.result? := by
  induction branch generalizing scope depth found steps with
  | nil =>
    cases h
    cases hlays
    exact ⟨rfl, rfl⟩
  | cons e rest ih =>
    obtain ⟨⟨outline, scope₁⟩, hfirst, h⟩ := ok_of_bind h
    obtain ⟨others, hothers, h⟩ := ok_of_bind h
    cases h
    cases hlays with
    | cons hlay hlays =>
    obtain ⟨b, rfl, -⟩ := hlay
    obtain ⟨hfact, hresult⟩ := Element.names_of_outline hfirst b
    obtain ⟨hfacts, hresults⟩ := ih hothers hlays
    simp only [List.filterMap_cons, hfact, hresult, hfacts, hresults, and_self]

/-! ## Scopes -/

/-- A pattern declares no result. -/
theorem Scope.result_of_declarePattern {scope scope' : Scope} {p : Pattern} {depth d : Nat}
    {name : String} (h : scope.declarePattern p depth = .ok scope')
    (hfind : Entries.find? name scope' = some (.result d)) :
    Entries.find? name scope = some (.result d) := by
  have hone : ∀ {scope scope' : Scope} {var : String} {declared : Declared},
      scope.declare var declared = .ok scope' → declared ≠ .result d →
      Entries.find? name scope' = some (.result d) →
      Entries.find? name scope = some (.result d) := fun {_ _ _ _} h hne hfind => by
    obtain ⟨-, rfl⟩ := Scope.declare_eq h
    rw [Entries.find?_insert] at hfind
    split at hfind
    · exact absurd (Option.some.inj hfind) hne
    · exact hfind
  have hfields : ∀ {fields : List (String × String)} {scope scope' : Scope},
      fields.foldlM (fun (scope : Scope) (var : String × String) =>
        scope.declare var.1 (.field depth var.2)) scope = .ok scope' →
      Entries.find? name scope' = some (.result d) →
      Entries.find? name scope = some (.result d) := fun {fields scope scope'} h hfind =>
    foldlM_ok (P := fun scope₁ : Scope => Entries.find? name scope₁ = some (.result d) →
        Entries.find? name scope = some (.result d))
      (fun _ _ _ _ ih hd hfind => ih (hone hd (fun hne => by cases hne) hfind)) id h hfind
  unfold Scope.declarePattern at h
  split at h
  · next var hvar =>
    obtain ⟨scope₁, hfirst, h⟩ := ok_of_bind h
    exact hone hfirst (fun hne => by cases hne) (hfields h hfind)
  · exact hfields h hfind

theorem Twins.regular {scope scope' : Scope} {depth : Nat} {sketches : List Sketch}
    {outlines : List Outline} (h : Twins scope depth scope' sketches outlines)
    (R : scope.Regular depth) : scope'.Regular (depth + sketches.length) := by
  induction h with
  | nil scope depth => exact R
  | cons htwin _ ih =>
    rw [List.length_cons, Nat.add_comm _ 1, ← Nat.add_assoc]
    exact ih (htwin.regular R)

/-- Only what steps fold facts to is a result. -/
theorem Twins.results {net : Network} {scope scope' : Scope} {depth d : Nat}
    {sketches : List Sketch} {outlines : List Outline} {steps : List PlanStep} {name : String}
    (htwins : Twins scope depth scope' sketches outlines)
    (hlays : List.Forall₂ net.Lays outlines steps)
    (hfind : Entries.find? name scope' = some (.result d)) :
    Entries.find? name scope = some (.result d) ∨ name ∈ steps.filterMap PlanStep.result? := by
  induction htwins generalizing steps with
  | nil scope depth => exact .inl hfind
  | @cons scope scope₁ scope₂ depth sketch outline sketches outlines htwin _ ih =>
    cases hlays with
    | cons hlay hlays =>
    obtain ⟨b, rfl, -⟩ := hlay
    rcases ih hlays hfind with hfound | hlater
    · cases htwin with
      | each supply tests p h => exact .inl (Scope.result_of_declarePattern h hfound)
      | absent | present | predicate => exact .inl hfound
      | accumulate supply tests fold result having h =>
        obtain ⟨-, rfl⟩ := Scope.declare_eq h
        rw [Entries.find?_insert] at hfound
        split at hfound
        · next heq => exact .inr (heq ▸ List.mem_cons_self)
        · exact .inl hfound
    · refine .inr ?_
      rw [List.filterMap_cons]
      split
      · exact hlater
      · exact List.mem_cons_of_mem _ hlater

/-! ## Facts by name -/

/-- A new name takes its place among the others. -/
theorem Entries.perm_insert {α : Type} {name : String} {value : α} {entries : Entries α}
    (h : entries.find? name = none) : (entries.insert name value).Perm ((name, value) :: entries) := by
  induction entries with
  | nil => exact .refl _
  | cons entry rest ih =>
    obtain ⟨k, w⟩ := entry
    rw [find?_cons] at h
    split at h
    · cases h
    · next hne =>
      rw [insert]
      split
      · exact .refl _
      · next heq => exact absurd (Std.LawfulEqOrd.eq_of_compare heq).symm hne
      · exact ((ih h).cons _).trans (.swap _ _ _)

/-- A pattern names its fact by a new name. -/
theorem Match.perm_declarePattern {store : WorkingMemory} {scope scope' : Scope} {μ : Match}
    (R : scope.Regular μ.length) {p : Pattern}
    (h : scope.declarePattern p (μ.length + 1) = .ok scope') {i : Handle} {fact : Fact}
    (hfact : store.fact? i = some fact) : (Match.row store scope' (μ ++ [.fact i])).facts.Perm
      (namedFacts [p.factVar] [i] ++ (μ.row store scope).facts) := by
  rw [row_declarePattern R h hfact]
  unfold Scope.declarePattern at h
  cases hvar : p.factVar with
  | none => exact .refl _
  | some name =>
    rw [hvar] at h
    obtain ⟨scope₁, hfirst, -⟩ := ok_of_bind h
    refine Entries.perm_insert ?_
    rw [find?_facts_row R, (Scope.declare_eq hfirst).1]
    rfl

theorem namedFacts_append {vars others : List (Option String)} {chosen rest : List Handle}
    (h : chosen.length = vars.length) :
    namedFacts (vars ++ others) (chosen ++ rest) = namedFacts vars chosen ++ namedFacts others rest := by
  rw [namedFacts, List.zip_append h.symm, List.filterMap_append]
  rfl

/-! ## Steps -/

namespace QueryView

variable {v : QueryView} {scope scope' : Scope} {μ : Match} {sketch : Sketch} {outline : Outline}
  {kind : NodeKind}

/-- A match goes on by the fact that a step chooses. -/
theorem row_of_extend {source : Source} {factVar : Option String}
    {fieldVars : List (String × String)} {i : Handle} {extended : Row}
    (htwin : Twin scope μ.length scope' sketch outline) (hfits : v.net.Fits sketch kind)
    (hlays : v.net.Lays outline (.each source factVar fieldVars)) (R : scope.Regular μ.length)
    (hmem : i ∈ v.members source (μ.row v.store scope))
    (hext : v.extend? source factVar fieldVars (μ.row v.store scope) i = some extended) :
    extended = Match.row v.store scope' (μ ++ [.fact i]) ∧ kind.Carries (.fact i) ∧
      extended.facts.Perm (namedFacts [factVar] [i] ++ (μ.row v.store scope).facts) ∧
      (v.Plain → .fact i ∈ kind.granted.extensions v.store v.matching.members μ) := by
  obtain ⟨a, hsame, ha⟩ := hfits
  obtain ⟨b, hstep, hb⟩ := hlays
  cases htwin with
  | each supply tests p h =>
    cases hstep
    obtain rfl := NodeKind.eq_of_same hsame (NodeKind.feed?_of_same hsame)
    obtain ⟨hs, hfind⟩ := hb supply rfl
    have hpasses : v.passes (Outline.source tests b) (μ.row v.store scope) i = true := by
      refine Decidable.byContradiction fun hfails => ?_
      rw [extend?_eq_none (Bool.not_eq_true _ ▸ hfails)] at hext
      cases hext
    obtain ⟨entry, he, -⟩ := (passes_row_iff v R μ i).1 hpasses
    have hfact : v.store.fact? i = some entry.fact := by
      rw [WorkingMemory.fact?, he]
      rfl
    obtain rfl := Option.some.inj (hext.symm.trans (extend?_row v R h hpasses))
    refine ⟨rfl, ⟨i, rfl⟩, Match.perm_declarePattern R h hfact, fun P => ?_⟩
    refine List.mem_map.2 ⟨i, ?_, rfl⟩
    rw [← P.partners_eq (μ := μ) (ha supply rfl) hs hfind R]
    exact List.mem_filter.2 ⟨hmem, hpasses⟩
  | _ => cases hstep

/-- A match goes on as a row does that passes a step. -/
theorem row_of_pass {step : PlanStep} {passed : Row}
    (htwin : Twin scope μ.length scope' sketch outline) (hfits : v.net.Fits sketch kind)
    (hlays : v.net.Lays outline step) (R : scope.Regular μ.length)
    (hpass : v.pass? (μ.row v.store scope) step = some passed) :
    ∃ e, e.handle = none ∧ passed = Match.row v.store scope' (μ ++ [e]) ∧ kind.Carries e ∧
      passed.facts = (μ.row v.store scope).facts ∧ step.factVar? = none ∧
      (v.Plain → kind.SumsIntegers v.store v.matching.members →
        e ∈ kind.granted.extensions v.store v.matching.members μ) := by
  obtain ⟨a, hsame, ha⟩ := hfits
  obtain ⟨b, rfl, hb⟩ := hlays
  cases htwin with
  | each supply tests p h => cases hpass
  | absent supply tests =>
    obtain rfl := NodeKind.eq_of_same hsame (NodeKind.feed?_of_same hsame)
    obtain ⟨hs, hfind⟩ := hb supply rfl
    obtain ⟨hnone, heq⟩ := Option.ite_none_right_eq_some.1 hpass
    cases heq
    refine ⟨.nothing, rfl, (Match.row_concat R _).symm, rfl, rfl, rfl, fun P _ => ?_⟩
    rw [P.partners_eq (μ := μ) (ha supply rfl) hs hfind R] at hnone
    exact List.mem_ite_nil_right.2 ⟨hnone, List.mem_singleton_self _⟩
  | present supply tests =>
    obtain rfl := NodeKind.eq_of_same hsame (NodeKind.feed?_of_same hsame)
    obtain ⟨hs, hfind⟩ := hb supply rfl
    obtain ⟨hsome, heq⟩ := Option.ite_none_left_eq_some.1 hpass
    cases heq
    refine ⟨.nothing, rfl, (Match.row_concat R _).symm, rfl, rfl, rfl, fun P _ => ?_⟩
    rw [P.partners_eq (μ := μ) (ha supply rfl) hs hfind R] at hsome
    exact List.mem_ite_nil_left.2 ⟨hsome, List.mem_singleton_self _⟩
  | accumulate supply tests fold result having h =>
    obtain rfl := NodeKind.eq_of_same hsame (NodeKind.feed?_of_same hsame)
    obtain ⟨hs, hfind⟩ := hb supply rfl
    obtain ⟨value, hvalue, rfl⟩ := Option.map_eq_some_iff.1 hpass
    refine ⟨.result value, rfl, (Match.row_declare_result R h value).symm, ⟨value, rfl⟩, rfl, rfl,
      fun P hsums => ?_⟩
    rw [P.folded?_eq (ha supply rfl) hs hfind R hsums] at hvalue
    exact List.mem_map.2 ⟨value, Option.mem_toList.2 hvalue, rfl⟩
  | predicate p =>
    obtain ⟨-, heq⟩ := Option.ite_none_right_eq_some.1 hpass
    cases heq
    cases kind with
    | predicate q places =>
      exact ⟨.nothing, rfl, (Match.row_concat R _).symm, rfl, rfl, rfl,
        fun _ _ => List.mem_singleton_self _⟩
    | _ => cases hsame

/-! ## Runs of steps -/

/-- A match has gone on as a row has, and by the facts that were chosen. Where the query leaves out no
    member of a memory, evaluation goes on to it as well if predicates are granted. -/
structure Traced (v : QueryView) (scope : Scope) (kinds : List NodeKind) (steps : List PlanStep)
    (μ : Match) (row : Row) (chosen : List Handle) (last : Row) (ν : Match) : Prop where
  last_eq : last = Match.row v.store scope (μ ++ ν)
  handles : ν.handles = chosen
  carries : List.Forall₂ NodeKind.Carries kinds ν
  length : chosen.length = (steps.filterMap PlanStep.factVar?).length
  named : last.facts.Perm (namedFacts (steps.filterMap PlanStep.factVar?) chosen ++ row.facts)
  found : v.Plain → (∀ kind ∈ kinds, kind.SumsIntegers v.store v.matching.members) →
    ∀ found, μ ∈ found →
      μ ++ ν ∈ evaluateFrom v.store v.matching.members found (kinds.map NodeKind.granted)

/-- One more step in front. -/
theorem Traced.cons {kinds : List NodeKind} {steps : List PlanStep} {e : Extension} {mid last : Row}
    {chosen : List Handle} {ν : Match} (h : v.Traced scope' kinds steps (μ ++ [e]) mid chosen last ν)
    (step : PlanStep) (row : Row) (hcarries : kind.Carries e)
    (hlength : e.handle.toList.length = step.factVar?.toList.length)
    (hnamed : mid.facts.Perm (namedFacts step.factVar?.toList e.handle.toList ++ row.facts))
    (hextension : v.Plain → kind.SumsIntegers v.store v.matching.members →
      e ∈ kind.granted.extensions v.store v.matching.members μ) :
    v.Traced scope' (kind :: kinds) (step :: steps) μ row (e.handle.toList ++ chosen) last
      (e :: ν) where
  last_eq := by rw [h.last_eq, List.append_assoc, List.singleton_append]
  handles := by
    rw [← h.handles, Match.handles, List.filterMap_cons]
    cases e.handle <;> rfl
  carries := .cons hcarries h.carries
  length := by rw [step.factVars_cons, List.length_append, List.length_append, h.length, hlength]
  named := by
    rw [step.factVars_cons, namedFacts_append hlength]
    have hlast := h.named.trans (hnamed.append_left _)
    rw [← List.append_assoc] at hlast
    exact hlast.trans (List.perm_append_comm.append_right _)
  found P hsums found hμ := by
    rw [List.append_cons]
    refine h.found P (fun kind hk => hsums kind (List.mem_cons_of_mem _ hk)) _ ?_
    exact List.mem_flatMap.2 ⟨μ, hμ, List.mem_map.2
      ⟨e, hextension P (hsums _ List.mem_cons_self), rfl⟩⟩

/-- Wherever steps lead a row, a match goes along. -/
theorem Leads.traced {depth : Nat} {sketches : List Sketch} {outlines : List Outline}
    {kinds : List NodeKind} {steps : List PlanStep} {chosen : List Handle} {last : Row}
    (htwins : Twins scope depth scope' sketches outlines)
    (hfits : List.Forall₂ v.net.Fits sketches kinds) (hlays : List.Forall₂ v.net.Lays outlines steps)
    (R : scope.Regular depth) (hμ : μ.length = depth)
    (h : v.Leads steps (μ.row v.store scope) chosen last) :
    ∃ ν, v.Traced scope' kinds steps μ (μ.row v.store scope) chosen last ν := by
  induction htwins generalizing kinds steps chosen μ with
  | nil scope depth =>
    cases hfits
    cases hlays
    cases h
    refine ⟨[], (congrArg _ (List.append_nil μ)).symm, rfl, .nil, rfl, .refl _, fun _ _ found hμ => ?_⟩
    rw [List.append_nil]
    exact hμ
  | @cons scope scope₁ scope₂ depth sketch outline sketches outlines htwin _ ih =>
    cases hfits with
    | cons hfit hfits =>
    cases hlays with
    | @cons _ step _ steps hlay hlays =>
    subst hμ
    have hnext : ∀ e : Extension, List.length (μ ++ [e]) = μ.length + 1 := fun e => by
      rw [List.length_append, List.length_singleton]
    cases h with
    | @each source factVar fieldVars _ _ extended _ i chosen hmem hext honward =>
      obtain ⟨rfl, hcarries, hnamed, hextension⟩ := row_of_extend htwin hfit hlay R hmem hext
      obtain ⟨ν, hν⟩ := ih hfits hlays (htwin.regular R) (hnext _) honward
      exact ⟨_, hν.cons (.each source factVar fieldVars) _ hcarries rfl hnamed fun P _ =>
        hextension P⟩
    | pass hpass honward =>
      obtain ⟨e, hnone, rfl, hcarries, hfacts, hvar, hextension⟩ := row_of_pass htwin hfit hlay R hpass
      obtain ⟨ν, hν⟩ := ih hfits hlays (htwin.regular R) (hnext _) honward
      have htraced := hν.cons step (μ.row v.store scope) hcarries (by rw [hnone, hvar]; rfl)
        (by rw [hnone, hvar, hfacts]; exact .refl _) hextension
      rw [hnone] at htraced
      exact ⟨_, htraced⟩

end QueryView

end RuleNet
