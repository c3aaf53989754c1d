/-
  The rows of a query are the variables of the matches that evaluation finds.

  * `QueryView.Plain`: a query leaves out no member of the memories that it reads.
  * `Network.Lays`: a step of a plan reads the memory that it asks for.
  * `QueryView.refer_row`: a query sees through names what a match sees by depths.
  * `QueryView.Plain.rows_step`: a step of a query goes on as its twin does.
  * `QueryView.Plain.rows_eq`: the rows of a plan are those of the matches of its twin, in order.
-/
import RuleNet.Proofs.Matching.Stock
import RuleNet.Proofs.Network.Agreement
import RuleNet.Proofs.Query.Twins
import RuleNet.Proofs.Query.Variables

namespace RuleNet

open Matching (Extension contribution)

/-! ## Sources -/

theorem Match.accepts_iff {store : WorkingMemory} {feed : Feed} {μ : Match} {h : Handle} :
    μ.accepts store feed h = true ↔
      (∃ entry, store.entry? h = some entry ∧
        Test.allHold (μ.view store) entry.fact entry.moment feed.tests = true) ∧
      ∀ index, feed.index = some index → ((store.valueOf h index.field).indexKey ==
        ((μ.view store).value index.place).indexKey) = true := by
  rw [accepts, Bool.and_eq_true]
  refine and_congr ?_ ?_
  · cases store.entry? h with
    | none =>
      refine iff_of_false Bool.false_ne_true ?_
      rintro ⟨entry, he, -⟩
      cases he
    | some entry => simp only [Option.some.injEq, exists_eq_left']
  · cases feed.index with
    | none =>
      refine iff_of_true rfl ?_
      intro index he
      cases he
    | some index => simp only [Option.some.injEq, forall_eq']

/-- A predicate reads no more of a binding than its variables, and is answered by another one. -/
def Predicate.AnsweredBy (p q : Predicate) : Prop :=
  ∀ b b' : Binding, b.facts = b'.facts → b.values = b'.values → p.holds b = q.holds b'

/-- A step of a plan reads the memory that it asks for, and can look its members up there. -/
def Network.Lays (net : Network) (outline : Outline) (step : PlanStep) : Prop :=
  ∃ b, step = outline.step b ∧ ∀ supply, outline.supply? = some supply →
    net.Supplies b supply ∧ ∀ field reference, outline.lookUp = some (field, reference) →
      net.Findable b field

namespace QueryView

variable {v : QueryView} {scope scope' : Scope} {μ : Match} {a b : AlphaId} {supply : Supply}
  {tests : List (Test Reference)}

/-- A query leaves out no member of a memory, and memories that take the same hold the same. -/
structure Plain (v : QueryView) : Prop where
  stocked : Stocked v.net v.store v.matching
  current : ∀ {a h}, h ∈ v.matching.members a → v.isCurrent a h = true
  alike : ∀ {a b supply}, v.net.Supplies a supply → v.net.Supplies b supply →
    v.matching.members b = v.matching.members a

/-- A query sees through names what a match sees by depths. -/
theorem refer_row (v : QueryView) {depth : Nat} (R : scope.Regular depth) (μ : Match) :
    v.refer (μ.row v.store scope) = (μ.view v.store).through scope.refersTo := by
  have hvalue : ∀ p, (v.refer (μ.row v.store scope)).value p =
      (μ.view v.store).value (scope.refersTo p) := fun p => by
    cases p with
    | value name =>
      simp only [refer, Match.find?_values_row R, Scope.refersTo]
      cases Entries.find? name scope with
      | none => rfl
      | some declared => cases declared <;> rfl
    | field name field =>
      simp only [refer, Match.find?_facts_row R, Scope.refersTo]
      cases Entries.find? name scope with
      | none => rfl
      | some declared => cases declared <;> rfl
    | fact name =>
      simp only [refer, Scope.refersTo]
      cases Entries.find? name scope with
      | none => rfl
      | some declared => cases declared <;> rfl
  have hmoment : ∀ p, (v.refer (μ.row v.store scope)).moment p =
      (μ.view v.store).moment (scope.refersTo p) := fun p => by
    cases p with
    | value name =>
      simp only [refer, Scope.refersTo]
      cases Entries.find? name scope with
      | none => rfl
      | some declared => cases declared <;> rfl
    | field name field =>
      simp only [refer, Scope.refersTo]
      cases Entries.find? name scope with
      | none => rfl
      | some declared => cases declared <;> rfl
    | fact name =>
      simp only [refer, Match.find?_facts_row R, Scope.refersTo]
      cases Entries.find? name scope with
      | none => rfl
      | some declared => cases declared <;> rfl
  rw [View.through, ← funext hvalue, ← funext hmoment]

theorem passes_row_iff (v : QueryView) {depth : Nat} (R : scope.Regular depth) (μ : Match)
    (h : Handle) : v.passes (Outline.source tests b) (μ.row v.store scope) h = true ↔
      ∃ entry, v.store.entry? h = some entry ∧ Test.allHold (μ.view v.store) entry.fact
        entry.moment (Test.mapItems scope.refersTo tests) = true := by
  unfold passes
  rw [refer_row v R]
  cases v.store.entry? h with
  | none =>
    refine iff_of_false Bool.false_ne_true ?_
    rintro ⟨entry, he, -⟩
    cases he
  | some entry =>
    simp only [Option.some.injEq, exists_eq_left', Test.allHold_map]
    rfl

/-- A fact is bound as a pattern says, if it goes with the row. -/
theorem extend?_row (v : QueryView) (R : scope.Regular μ.length) {p : Pattern}
    (h : scope.declarePattern p (μ.length + 1) = .ok scope') {i : Handle}
    (hpasses : v.passes (Outline.source tests b) (μ.row v.store scope) i = true) :
    v.extend? (Outline.source tests b) p.factVar p.fieldVars (μ.row v.store scope) i =
      some (Match.row v.store scope' (μ ++ [.fact i])) := by
  obtain ⟨entry, he, -⟩ := (passes_row_iff v R μ i).1 hpasses
  have hfact : v.store.fact? i = some entry.fact := by
    rw [WorkingMemory.fact?, he]
    rfl
  unfold extend?
  rw [hpasses, hfact, Match.row_declarePattern R h hfact]
  cases p.factVar <;> rfl

theorem extend?_eq_none {source : Source} {factVar : Option String}
    {fieldVars : List (String × String)} {row : Row} {h : Handle}
    (hpasses : v.passes source row h = false) :
    v.extend? source factVar fieldVars row h = none := by
  unfold extend?
  rw [hpasses]
  rfl

theorem pairwise_members (source : Source) (row : Row) :
    (v.members source row).Pairwise (· < ·) := by
  unfold members
  refine List.Pairwise.filter _ ?_
  split
  · exact IdSet.pairwise_toList _
  · exact IdSet.pairwise_toList _

/-- Steps go on from the rows of the first one. -/
theorem rows_cons (v : QueryView) (step : PlanStep) (rest : List PlanStep) (row : Row) :
    v.rows (step :: rest) row = (v.rows [step] row).flatMap (v.rows rest) := by
  cases step with
  | each source factVar fieldVars =>
    rw [rows, rows, List.flatMap_assoc]
    refine congrArg (List.flatMap · _) (funext fun i => ?_)
    cases v.extend? source factVar fieldVars row i <;> simp [rows]
  | absent source | present source | accumulate source fold result having | predicate p =>
    simp only [rows]
    split <;> simp

/-- A step that chooses a fact has a row for each partner of the match. -/
theorem rows_each (v : QueryView) (R : scope.Regular μ.length) {p : Pattern}
    (h : scope.declarePattern p (μ.length + 1) = .ok scope') :
    v.rows [.each (Outline.source tests b) p.factVar p.fieldVars] (μ.row v.store scope) =
      (v.partners (Outline.source tests b) (μ.row v.store scope)).map fun i =>
        Match.row v.store scope' (μ ++ [.fact i]) := by
  rw [rows, partners]
  induction v.members (Outline.source tests b) (μ.row v.store scope) with
  | nil => rfl
  | cons i others ih =>
    rw [List.flatMap_cons, ih, List.filter_cons]
    cases hpasses : v.passes (Outline.source tests b) (μ.row v.store scope) i with
    | false =>
      rw [extend?_eq_none hpasses]
      rfl
    | true =>
      rw [extend?_row v R h hpasses]
      rfl

/-- What becomes of a row at a step that does not choose a fact. -/
theorem rows_pass {step : PlanStep} (hstep : ∀ source factVar fieldVars,
    step ≠ .each source factVar fieldVars) (row : Row) :
    v.rows [step] row = (v.pass? row step).toList := by
  cases step with
  | each source factVar fieldVars => exact absurd rfl (hstep source factVar fieldVars)
  | absent source | present source | accumulate source fold result having | predicate p =>
    simp only [rows]
    split
    · next h =>
      rw [h]
      rfl
    · next h =>
      rw [h]
      rfl

namespace Plain

variable (P : v.Plain)
include P

/-- The members that a step of a query is offered. -/
theorem mem_members (hfind : ∀ field reference,
    Source.lookUpFor tests = some (field, reference) → v.net.Findable b field) (row : Row)
    (h : Handle) : h ∈ v.members (Outline.source tests b) row ↔ h ∈ v.matching.members b ∧
      ∀ field reference, Source.lookUpFor tests = some (field, reference) →
        ((v.store.valueOf h field).indexKey ==
          ((v.refer row).value reference).indexKey) = true := by
  unfold members Outline.source
  dsimp only
  rw [List.mem_filter]
  cases hl : Source.lookUpFor tests with
  | none =>
    rw [Std.ExtTreeSet.mem_toList]
    refine (and_iff_left_of_imp P.current).trans (and_iff_left ?_).symm
    intro field reference he
    cases he
  | some found =>
    obtain ⟨field, reference⟩ := found
    obtain ⟨alpha, halpha, hindexed⟩ := hfind field reference hl
    rw [Std.ExtTreeSet.mem_toList, Matching.lookUp_eq, P.stocked.found halpha hindexed]
    refine (and_iff_left_of_imp fun hi => P.current hi.1).trans (and_congr_right fun _ => ?_)
    constructor
    · intro hkey field' reference' he
      cases he
      exact hkey
    · exact fun hall => hall field reference rfl

/-- What a step of a query finds for a row is what a node finds for the match. -/
theorem partners_eq (ha : v.net.Supplies a supply) (hb : v.net.Supplies b supply)
    (hfind : ∀ field reference, Source.lookUpFor tests = some (field, reference) →
      v.net.Findable b field) {depth : Nat} (R : scope.Regular depth) :
    v.partners (Outline.source tests b) (μ.row v.store scope) =
      μ.partners v.store v.matching.members
        (Sketch.feed a (Test.mapItems scope.refersTo tests)) := by
  refine eq_of_ascending (fun i j hij hji => Nat.lt_asymm hij hji)
    ((pairwise_members _ _).filter _) ((IdSet.pairwise_toList _).filter _) fun h => ?_
  rw [QueryView.partners, List.mem_filter, P.mem_members hfind, passes_row_iff v R,
    Match.mem_partners, Match.accepts_iff, P.alike ha hb, and_assoc, refer_row v R]
  refine and_congr_right fun _ => and_comm.trans (and_congr_right fun _ => ?_)
  rw [Sketch.feed, JoinIndex.choose?, Test.head?_equalityPlace?_map, ← Source.lookUpFor]
  cases Source.lookUpFor tests with
  | none =>
    refine iff_of_true ?_ ?_
    · intro field reference he
      cases he
    · intro index he
      cases he
  | some found =>
    obtain ⟨field, reference⟩ := found
    constructor
    · intro hall index he
      cases he
      exact hall field reference rfl
    · intro hall field' reference' he
      cases he
      exact hall _ rfl

/-- The fold of what a step of a query finds is the fold of a node. -/
theorem folded?_eq (ha : v.net.Supplies a supply) (hb : v.net.Supplies b supply)
    (hfind : ∀ field reference, Source.lookUpFor tests = some (field, reference) →
      v.net.Findable b field) {depth : Nat} (R : scope.Regular depth) {fold : Fold}
    {having : Option (Operator × TestOperand Reference)}
    (hsums : fold.needsNumbers = true →
      ∀ h ∈ v.matching.members a, (contribution v.store fold h).isDouble = false) :
    v.folded? (Outline.source tests b) fold having (μ.row v.store scope) =
      μ.folded? v.store v.matching.members (Sketch.feed a (Test.mapItems scope.refersTo tests)) fold
        (having.map fun condition => (condition.1, condition.2.map scope.refersTo)) := by
  have hpartners := P.partners_eq (μ := μ) ha hb hfind R
  generalize hfeed : Sketch.feed a (Test.mapItems scope.refersTo tests) = feed at hpartners ⊢
  have halpha : feed.alpha = a := by
    rw [← hfeed]
    rfl
  obtain ⟨facts, hfacts⟩ : ∃ facts, μ.partners v.store v.matching.members feed = facts := ⟨_, rfl⟩
  obtain ⟨hfold, hregular, hcontributions⟩ :=
    Accumulator.ofList_spec fold (contribution v.store fold) facts
  have hfolds : (Accumulator.ofList fold (facts.map fun h =>
      (h, contribution v.store fold h))).Folds v.store fold :=
    ⟨hfold, hregular, fun {i c} hc => by
      rw [hcontributions] at hc
      split at hc
      · exact (Option.some.inj hc).symm
      · cases hc⟩
  have hascending : facts.Pairwise (· < ·) := by
    rw [← hfacts]
    exact (IdSet.pairwise_toList _).filter _
  have hvalues := hfolds.values hascending fun i => by
    rw [Accumulator.contains_iff, hcontributions]
    by_cases hi : i ∈ facts <;> simp [hi]
  have hresult : (Accumulator.ofList fold (facts.map fun h =>
      (h, contribution v.store fold h))).result? =
        fold.over (facts.map (contribution v.store fold)) := by
    rw [hregular.result?_eq, hvalues, hfold]
    rw [hfold, hvalues]
    intro hneeds value hvalue
    obtain ⟨i, hi, rfl⟩ := List.mem_map.1 hvalue
    rw [← hfacts] at hi
    exact hsums hneeds i (halpha ▸ (Match.mem_partners.1 hi).1)
  rw [QueryView.folded?, Match.folded?, hpartners, hfacts]
  refine congr (congrArg Option.filter (funext fun value => ?_)) hresult
  cases having with
  | none => rfl
  | some condition =>
    show condition.1.apply value (condition.2.resolve (v.refer (μ.row v.store scope))) =
      condition.1.apply value ((condition.2.map scope.refersTo).resolve (μ.view v.store))
    rw [refer_row v R, TestOperand.resolve_map]

/-- A step of a query goes on from a row as a node goes on from its match. -/
theorem rows_step {depth : Nat} {sketch : Sketch} {outline : Outline} {kind : NodeKind}
    {step : PlanStep} (htwin : Twin scope depth scope' sketch outline)
    (hfits : v.net.Fits sketch kind) (hlays : v.net.Lays outline step) (R : scope.Regular depth)
    (hμ : μ.length = depth) (hsums : kind.SumsIntegers v.store v.matching.members)
    (hpredicate : ∀ p q places places', sketch = .predicate p places → kind = .predicate q places' →
      p.same q = true → p.AnsweredBy q) :
    v.rows [step] (μ.row v.store scope) = (kind.extensions v.store v.matching.members μ).map fun e =>
      Match.row v.store scope' (μ ++ [e]) := by
  subst hμ
  obtain ⟨a, hsame, ha⟩ := hfits
  obtain ⟨b, rfl, hb⟩ := hlays
  have hnothing : ∀ e, Match.row v.store scope (μ ++ [e]) = μ.row v.store scope := Match.row_concat R
  cases htwin with
  | each supply tests p h =>
    obtain rfl := NodeKind.eq_of_same hsame (NodeKind.feed?_of_same hsame)
    obtain ⟨hs, hfind⟩ := hb supply rfl
    have hpartners := P.partners_eq (μ := μ) (ha supply rfl) hs hfind R
    show v.rows [.each (Outline.source tests b) p.factVar p.fieldVars] _ =
      ((μ.partners v.store v.matching.members
        (Sketch.feed a (Test.mapItems scope.refersTo tests))).map Extension.fact).map _
    rw [rows_each v R h, hpartners, List.map_map]
    rfl
  | absent supply tests =>
    obtain rfl := NodeKind.eq_of_same hsame (NodeKind.feed?_of_same hsame)
    obtain ⟨hs, hfind⟩ := hb supply rfl
    have hpartners := P.partners_eq (μ := μ) (ha supply rfl) hs hfind R
    rw [rows_pass (fun _ _ _ h => by cases h)]
    simp only [pass?, hpartners, NodeKind.extensions, Sketch.kind, Outline.of]
    split
    · simp only [Option.toList_some, List.map_cons, List.map_nil, hnothing]
    · rfl
  | present supply tests =>
    obtain rfl := NodeKind.eq_of_same hsame (NodeKind.feed?_of_same hsame)
    obtain ⟨hs, hfind⟩ := hb supply rfl
    have hpartners := P.partners_eq (μ := μ) (ha supply rfl) hs hfind R
    rw [rows_pass (fun _ _ _ h => by cases h)]
    simp only [pass?, hpartners, NodeKind.extensions, Sketch.kind, Outline.of]
    split
    · rfl
    · simp only [Option.toList_some, List.map_cons, List.map_nil, hnothing]
  | accumulate supply tests fold result having h =>
    obtain rfl := NodeKind.eq_of_same hsame (NodeKind.feed?_of_same hsame)
    obtain ⟨hs, hfind⟩ := hb supply rfl
    rw [rows_pass (fun _ _ _ h => by cases h)]
    simp only [pass?, NodeKind.extensions, Sketch.kind, Outline.of,
      P.folded?_eq (ha supply rfl) hs hfind R hsums]
    rw [Option.toList_map, List.map_map]
    exact List.map_congr_left fun value _ => (Match.row_declare_result R h value).symm
  | predicate p =>
    cases kind with
    | predicate q places =>
      simp only [Sketch.kind, NodeKind.same, Bool.and_eq_true, decide_eq_true_eq] at hsame
      obtain ⟨hsame, rfl⟩ := hsame
      have hholds : p.holds (μ.row v.store scope).toBinding =
          q.holds (μ.binding v.store scope.places) :=
        hpredicate p q _ _ rfl rfl hsame _ _ rfl rfl
      rw [rows_pass (fun _ _ _ h => by cases h)]
      simp only [pass?, NodeKind.extensions, hholds]
      split
      · simp only [Option.toList_some, List.map_cons, List.map_nil, hnothing]
      · rfl
    | _ => cases hsame

/-- The rows that extend those of some matches are the rows of the matches that evaluation goes on
    to. -/
theorem rows_eq {depth : Nat} {sketches : List Sketch} {outlines : List Outline}
    {kinds : List NodeKind} {steps : List PlanStep}
    (htwins : Twins scope depth scope' sketches outlines)
    (hfits : List.Forall₂ v.net.Fits sketches kinds) (hlays : List.Forall₂ v.net.Lays outlines steps)
    (R : scope.Regular depth)
    (hsums : ∀ kind ∈ kinds, kind.SumsIntegers v.store v.matching.members)
    (hpredicate : ∀ p q places places', .predicate p places ∈ sketches →
      .predicate q places' ∈ kinds → p.same q = true → p.AnsweredBy q)
    (found : List Match) (hfound : ∀ μ ∈ found, μ.length = depth) :
    found.flatMap (fun μ => v.rows steps (μ.row v.store scope)) =
      (kinds.foldl (fun found kind => found.flatMap fun μ =>
        (kind.extensions v.store v.matching.members μ).map fun e => μ ++ [e]) found).map
          (·.row v.store scope') := by
  induction htwins generalizing kinds steps found with
  | nil scope depth =>
    cases hfits
    cases hlays
    exact List.map_eq_flatMap.symm
  | cons htwin _ ih =>
    cases hfits with
    | cons hfit hfits =>
    cases hlays with
    | cons hlay hlays =>
    rw [List.foldl_cons, ← ih hfits hlays (htwin.regular R)
      (fun kind hk => hsums kind (List.mem_cons_of_mem _ hk))
      (fun p q places places' hp hq => hpredicate p q places places' (List.mem_cons_of_mem _ hp)
        (List.mem_cons_of_mem _ hq)), List.flatMap_assoc]
    · refine List.flatMap_congr fun μ hμ => ?_
      rw [rows_cons, P.rows_step htwin hfit hlay R (hfound μ hμ)
        (hsums _ List.mem_cons_self) fun p q places places' hp hq => hpredicate p q places places'
          (hp ▸ List.mem_cons_self) (hq ▸ List.mem_cons_self), List.flatMap_map, List.flatMap_map]
    · intro ν hν
      obtain ⟨μ, hμ, hν⟩ := List.mem_flatMap.1 hν
      obtain ⟨e, -, rfl⟩ := List.mem_map.1 hν
      rw [List.length_append, hfound μ hμ, List.length_singleton]

end Plain

end QueryView

end RuleNet
