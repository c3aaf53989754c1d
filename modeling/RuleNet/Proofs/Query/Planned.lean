/-
  Every query of a rule base has its plan, and the plan reads the memories that it asks for.

  * `Network.WellFormed.lays_placeAll`: the steps of a branch get their memories.
  * `Network.Answers`: a plan answers a query without parameters, branch by branch.
  * `Declarations.answers_build`: every query without parameters is answered by the plan of its name.
-/
import RuleNet.Proofs.Network.Carried
import RuleNet.Proofs.Query.Rows

namespace RuleNet

namespace Network

variable {net net' : Network} {types : Types}

/-! ## Steps -/

theorem Findable.extend (h : net.Extends net') {a : AlphaId} {field : String}
    (hf : net.Findable a field) : net'.Findable a field := by
  obtain ⟨alpha, ha, hfield⟩ := hf
  obtain ⟨alpha', ha', hg⟩ := h.keeps a alpha ha
  exact ⟨alpha', ha', hg.indexedFields hfield⟩

theorem Lays.extend (h : net.Extends net') {outline : Outline} {step : PlanStep}
    (hl : net.Lays outline step) : net'.Lays outline step := by
  obtain ⟨b, hstep, hb⟩ := hl
  refine ⟨b, hstep, fun supply hs => ?_⟩
  obtain ⟨hsupplies, hfind⟩ := hb supply hs
  exact ⟨hsupplies.extend h, fun field reference hl => (hfind field reference hl).extend h⟩

/-- A step gets its memory. -/
theorem WellFormed.lays_place (W : net.WellFormed) (outline : Outline) :
    (net.place outline).2.Lays outline (net.place outline).1 := by
  obtain ⟨-, -, hsupplies⟩ := @WellFormed.supplied net _ W outline.supply? _ rfl
  have E := (Furnishes.findable (net.supplied outline.supply?).2
    (net.supplied outline.supply?).1 outline.lookUp).stores.extends
  refine ⟨_, rfl, fun supply hs => ⟨(hsupplies supply hs).extend E, fun field reference hl => ?_⟩⟩
  obtain ⟨alpha, ha, -⟩ := hsupplies supply hs
  obtain ⟨alpha', ha', -, -, hfield⟩ := alpha?_indexField _ _ _ field ha
  refine ⟨alpha', ?_, hfield rfl⟩
  rw [place, hl]
  exact ha'

/-- The steps of a branch get their memories. -/
theorem WellFormed.lays_placeAll (W : net.WellFormed) (outlines : List Outline) :
    net.Furnishes (net.placeAll outlines).2 ∧
      List.Forall₂ (net.placeAll outlines).2.Lays outlines (net.placeAll outlines).1 := by
  induction outlines generalizing net with
  | nil => exact ⟨.refl net, .nil⟩
  | cons outline rest ih =>
    have F := Furnishes.place net outline
    obtain ⟨F', hrest⟩ := ih (F.wellFormed W)
    exact ⟨F.trans F', .cons ((W.lays_place outline).extend F'.stores.extends) hrest⟩

/-! ## Plans -/

/-- The steps of a plan are those that a branch of a query asks for. -/
def Outlines (net : Network) (types : Types) (branch : List Element) (steps : List PlanStep) :
    Prop :=
  ∃ found, outlines types [] 0 branch = .ok found ∧ List.Forall₂ net.Lays found steps

theorem Outlines.extend (h : net.Extends net') {branch : List Element} {steps : List PlanStep}
    (ho : net.Outlines types branch steps) : net'.Outlines types branch steps := by
  obtain ⟨found, hfound, hlays⟩ := ho
  exact ⟨found, hfound, hlays.imp fun _ _ hl => hl.extend h⟩

/-- The branches of a query get their steps. -/
theorem WellFormed.outlines_compileBranches (W : net.WellFormed) {branches : Branches}
    {plans : List (List PlanStep)}
    (h : Plan.compileBranches types [] net branches = .ok (plans, net')) :
    List.Forall₂ (net'.Outlines types) branches plans := by
  induction branches generalizing net plans with
  | nil =>
    cases h
    exact .nil
  | cons branch rest ih =>
    obtain ⟨⟨steps, net₁⟩, hbranch, h⟩ := ok_of_bind h
    obtain ⟨⟨others, net₂⟩, hrest, h⟩ := ok_of_bind h
    cases h
    rw [Plan.compileBranch_eq] at hbranch
    cases hfound : outlines types [] 0 branch with
    | error d => rw [hfound] at hbranch; cases hbranch
    | ok found =>
      rw [hfound] at hbranch
      obtain ⟨F, hlays⟩ := W.lays_placeAll found
      rw [Except.ok.inj hbranch] at F hlays
      have E := (Furnishes.compileBranches hrest).stores.extends
      exact .cons ⟨found, hfound, hlays.imp fun _ _ hl => hl.extend E⟩ (ih (F.wellFormed W) hrest)

/-- A plan answers a query without parameters. -/
structure Answers (net : Network) (types : Types) (query : Query) (plan : Plan) : Prop where
  parameters : plan.parameters = []
  branches : ∃ branches, query.condition.normalize = .ok branches ∧
    List.Forall₂ (net.Outlines types) branches plan.branches

theorem Answers.extend (h : net.Extends net') {query : Query} {plan : Plan}
    (ha : net.Answers types query plan) : net'.Answers types query plan := by
  obtain ⟨branches, hbranches, hplans⟩ := ha.branches
  exact ⟨ha.parameters, branches, hbranches, hplans.imp fun _ _ ho => ho.extend h⟩

/-- A query without parameters is answered by its plan. -/
theorem WellFormed.answers_compile (W : net.WellFormed) {query : Query} {plan : Plan}
    (hnone : query.parameters = []) (h : Plan.compile types net query = .ok (plan, net')) :
    net'.Answers types query plan := by
  obtain ⟨branches, hbranches, h⟩ := ok_of_bind h
  obtain ⟨⟨plans, net₁⟩, hplans, h⟩ := ok_of_bind h
  cases h
  rw [hnone] at hplans
  exact ⟨hnone, branches, hbranches, W.outlines_compileBranches hplans⟩

end Network

/-! ## Assembly -/

namespace Assembly

variable {a : Assembly}

/-- A query with which nothing is wrong has been compiled under a new name. -/
theorem addQuery_ok {query : Query} (h : (a.addQuery query).problems = []) :
    a.queries.find? query.name = none ∧ ∃ plan network,
      Plan.compile a.types a.network query = .ok (plan, network) ∧
      (a.addQuery query).network = network ∧
      (a.addQuery query).queries = a.queries.insert query.name plan := by
  unfold addQuery at h ⊢
  split at h
  · cases (List.append_eq_nil_iff.1 h).2
  · next hnew =>
    rw [if_neg hnew]
    split at h
    · next plan network hp =>
      rw [hp]
      refine ⟨?_, plan, network, rfl, rfl, rfl⟩
      rw [Entries.contains] at hnew
      cases hf : a.queries.find? query.name with
      | none => rfl
      | some other => rw [hf] at hnew; exact absurd rfl hnew
    · cases (List.append_eq_nil_iff.1 h).2

theorem types_addQueries (a : Assembly) (queries : List Query) :
    (queries.foldl addQuery a).types = a.types :=
  List.foldlRecOn queries addQuery (motive := fun b => b.types = a.types) rfl
    fun b h query _ => (b.types_addQuery query).trans h

/-- Queries come one after the other, and those that are there are answered as before. -/
theorem answers_addQueries (queries : List Query) {done : List Query}
    (W : a.problems = [] → a.network.WellFormed)
    (h : a.problems = [] → ∀ query ∈ done, query.parameters = [] →
      ∃ plan, a.queries.find? query.name = some plan ∧ a.network.Answers a.types query plan)
    (hnone : (queries.foldl addQuery a).problems = []) :
    ∀ query ∈ done ++ queries, query.parameters = [] → ∃ plan,
      (queries.foldl addQuery a).queries.find? query.name = some plan ∧
      (queries.foldl addQuery a).network.Answers a.types query plan := by
  induction queries generalizing a done with
  | nil =>
    rw [List.append_nil]
    exact h hnone
  | cons query rest ih =>
    have hnext := @ih (a.addQuery query) (done ++ [query])
      (fun hok => (a.furnishes_addQuery query).wellFormed (W (problems_addQuery hok)))
      (fun hok other hother hparams => by
        obtain ⟨hnew, plan, network, hcompile, hnetwork, hqueries⟩ := addQuery_ok hok
        have hprior := problems_addQuery hok
        rw [types_addQuery, hqueries, Entries.find?_insert]
        rcases List.mem_append.1 hother with hdone | hsame
        · obtain ⟨plan', hplan', hanswers⟩ := h hprior other hdone hparams
          refine ⟨plan', ?_, hanswers.extend (a.furnishes_addQuery query).stores.extends⟩
          rw [if_neg, hplan']
          intro he
          rw [← he, hnew] at hplan'
          cases hplan'
        · obtain rfl := List.mem_singleton.1 hsame
          refine ⟨plan, if_pos rfl, ?_⟩
          rw [hnetwork]
          exact (W hprior).answers_compile hparams hcompile)
      hnone
    rw [types_addQuery, List.append_assoc] at hnext
    exact hnext

end Assembly

/-- The network is well-formed before the first query. -/
theorem Declarations.wellFormed_rules (declarations : Declarations) :
    (declarations.rules.zipIdx.foldl (fun a rule => Assembly.addRule a rule.1 rule.2)
      (declarations.types.foldl Assembly.addType .empty)).network.WellFormed := by
  have hempty : ((declarations.types.foldl Assembly.addType .empty).network.Proper
      fun _ _ => True) := by
    rw [network_addTypes]
    exact ⟨Network.wellFormed_empty, fun n feed fold having hk => by cases hk⟩
  have hproper := List.foldlRecOn declarations.rules.zipIdx
    (fun a rule => Assembly.addRule a rule.1 rule.2)
    (motive := fun a : Assembly => a.network.Proper fun _ _ => True) hempty
    fun a h rule _ => Assembly.proper_addRule h rule.2 fun _ _ _ _ => trivial
  exact hproper.wellFormed

/-- Every query without parameters is answered by the plan of its name. -/
theorem Declarations.answers_build {declarations : Declarations} {base : RuleBase}
    (h : declarations.build = .ok base) {query : Query} (hquery : query ∈ declarations.queries)
    (hparams : query.parameters = []) :
    ∃ plan, base.query? query.name = some plan ∧ base.network.Answers base.types query plan := by
  obtain ⟨hnone, rfl⟩ := build_eq h
  obtain ⟨plan, hplan, hanswers⟩ := @Assembly.answers_addQueries _
    declarations.queries [] (fun _ => declarations.wellFormed_rules) (fun _ other hother => by cases hother)
    hnone query hquery hparams
  refine ⟨plan, hplan, ?_⟩
  have htypes : declarations.assemble.types = _ := Assembly.types_addQueries _ declarations.queries
  rw [← types_assemble, htypes]
  exact hanswers.extend (Network.Furnishes.finish _).stores.extends

end RuleNet
