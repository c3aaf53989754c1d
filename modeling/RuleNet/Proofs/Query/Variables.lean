/-
  The variables of a match, as a row.

  A rule keeps the variables of a match by the depths at which they were bound, a query keeps them by
  name.

  * `Match.row`: the variables of a match, as a row.
  * `Match.row_concat`: what is bound stays bound while a match goes on.
  * `Match.row_declarePattern`, `Match.row_declare_result`: what a step binds.
-/
import RuleNet.Proofs.Matching.Evaluate
import RuleNet.Proofs.Query.Resolve
import RuleNet.Query.Rows

namespace RuleNet

open Matching (Extension)

/-! ## Rows of matches -/

theorem Row.eq_of {r r' : Row} (hfacts : r.facts = r'.facts) (hvalues : r.values = r'.values) :
    r = r' := by
  cases r
  cases r'
  rw [Row.mk.injEq]
  exact ⟨hfacts, hvalues⟩

namespace Match

/-- The variables of a match, as a row. -/
def row (store : WorkingMemory) (scope : Scope) (μ : Match) : Row :=
  ⟨(μ.binding store scope.places).facts, (μ.binding store scope.places).values⟩

variable {store : WorkingMemory} {scope scope' : Scope} {depth : Nat} {μ : Match}

/-- The fact that a variable is bound to. -/
def factOf (μ : Match) : Declared → Option Handle
  | .fact depth _ => μ.handleAt? depth
  | _ => none

/-- The value that a variable is bound to. -/
def valueOf (store : WorkingMemory) (μ : Match) : Declared → Option Value
  | .field depth field => some ((μ.view store).value (.field depth field))
  | .result depth => some ((μ.view store).value (.result depth))
  | _ => none

theorem facts_row : (μ.row store scope).facts = Entries.select (fun _ d => μ.factOf d) scope := by
  simp only [row, binding, Scope.places, List.filterMap_filterMap, Entries.select]
  refine congrArg (List.filterMap · scope) (funext fun e => ?_)
  obtain ⟨name, declared⟩ := e
  cases declared <;> rfl

theorem values_row :
    (μ.row store scope).values = Entries.select (fun _ d => μ.valueOf store d) scope := by
  simp only [row, binding, Scope.places, List.filterMap_filterMap, Entries.select]
  refine congrArg (List.filterMap · scope) (funext fun e => ?_)
  obtain ⟨name, declared⟩ := e
  cases declared <;> rfl

theorem find?_facts_row (R : scope.Regular depth) (name : String) :
    (μ.row store scope).facts.find? name = (Entries.find? name scope).bind μ.factOf := by
  rw [facts_row, Entries.find?_select _ R.ordered]

theorem find?_values_row (R : scope.Regular depth) (name : String) :
    (μ.row store scope).values.find? name =
      (Entries.find? name scope).bind (μ.valueOf store) := by
  rw [values_row, Entries.find?_select _ R.ordered]

theorem ordered_facts_row (R : scope.Regular depth) : (μ.row store scope).facts.Ordered := by
  rw [facts_row]
  exact Entries.ordered_select _ R.ordered

theorem ordered_values_row (R : scope.Regular depth) : (μ.row store scope).values.Ordered := by
  rw [values_row]
  exact Entries.ordered_select _ R.ordered

/-- Two matches that bind the same have the same row. -/
theorem row_congr {ν : Match} (hfact : ∀ name d, (name, d) ∈ scope → μ.factOf d = ν.factOf d)
    (hvalue : ∀ name d, (name, d) ∈ scope → μ.valueOf store d = ν.valueOf store d) :
    μ.row store scope = ν.row store scope := by
  refine Row.eq_of ?_ ?_
  · rw [facts_row, facts_row]
    exact List.filterMap_congr fun e he => congrArg (Option.map _) (hfact e.1 e.2 he)
  · rw [values_row, values_row]
    exact List.filterMap_congr fun e he => congrArg (Option.map _) (hvalue e.1 e.2 he)

theorem at?_concat {e : Extension} {d : Nat} (hd : d ≤ μ.length) :
    Match.at? (μ ++ [e]) d = μ.at? d := by
  cases d with
  | zero => rfl
  | succ d => exact List.getElem?_append_left hd

theorem at?_last (e : Extension) : Match.at? (μ ++ [e]) (μ.length + 1) = some e :=
  List.getElem?_concat_length

/-- What a match binds stays bound when it goes on. -/
theorem row_concat (R : scope.Regular μ.length) (e : Extension) :
    Match.row store scope (μ ++ [e]) = μ.row store scope := by
  have hat : ∀ {d : Nat}, d ≤ μ.length → Match.at? (μ ++ [e]) d = μ.at? d := at?_concat
  refine row_congr (fun name d hd => ?_) fun name d hd => ?_
  · have hwithin := R.within ((Entries.mem_iff R.ordered).1 hd)
    cases d with
    | fact d type => simp only [factOf, Match.handleAt?, hat hwithin]
    | field d field => rfl
    | result d => rfl
    | parameter => rfl
  · have hwithin := R.within ((Entries.mem_iff R.ordered).1 hd)
    cases d with
    | fact d type => rfl
    | field d field => simp only [valueOf, Match.view, Match.handleAt?, hat hwithin]
    | result d => simp only [valueOf, Match.view, hat hwithin]
    | parameter => rfl

/-- A variable for a fact is bound. -/
theorem row_declare_fact (R : scope.Regular depth) {name type : String} {d : Nat}
    (h : scope.declare name (.fact d type) = .ok scope') (hd : d ≤ depth) {i : Handle}
    (hi : μ.handleAt? d = some i) :
    μ.row store scope' =
      ⟨(μ.row store scope).facts.insert name i, (μ.row store scope).values⟩ := by
  have hwithin : (Declared.fact d type).Within depth := hd
  have R' := R.declare hwithin h
  obtain ⟨hnew, rfl⟩ := Scope.declare_eq h
  refine Row.eq_of ?_ ?_
  · refine Entries.ext (ordered_facts_row R') (Entries.ordered_insert _ _ (ordered_facts_row R))
      fun name' => ?_
    rw [find?_facts_row R', Entries.find?_insert, Entries.find?_insert, find?_facts_row R]
    split
    · exact hi
    · rfl
  · refine Entries.ext (ordered_values_row R') (ordered_values_row R) fun name' => ?_
    rw [find?_values_row R', Entries.find?_insert, find?_values_row R]
    split
    · next heq =>
      subst heq
      rw [hnew]
      rfl
    · rfl

/-- A variable for a value is bound. -/
theorem row_declare_value (R : scope.Regular depth) {name : String} {declared : Declared}
    (h : scope.declare name declared = .ok scope') (hd : declared.Within depth) {value : Value}
    (hfact : μ.factOf declared = none) (hvalue : μ.valueOf store declared = some value) :
    μ.row store scope' =
      ⟨(μ.row store scope).facts, (μ.row store scope).values.insert name value⟩ := by
  have R' := R.declare hd h
  obtain ⟨hnew, rfl⟩ := Scope.declare_eq h
  refine Row.eq_of ?_ ?_
  · show (μ.row store _).facts = (μ.row store scope).facts
    refine Entries.ext (ordered_facts_row R') (ordered_facts_row R) fun name' => ?_
    rw [find?_facts_row R', Entries.find?_insert, find?_facts_row R]
    split
    · next heq =>
      subst heq
      rw [hnew]
      exact hfact
    · rfl
  · refine Entries.ext (ordered_values_row R') (Entries.ordered_insert _ _ (ordered_values_row R))
      fun name' => ?_
    rw [find?_values_row R', Entries.find?_insert, Entries.find?_insert, find?_values_row R]
    split
    · exact hvalue
    · rfl

/-- The fields of a fact are bound. -/
theorem row_declare_fields {fields : List (String × String)} (R : scope.Regular depth)
    (h : fields.foldlM (fun (scope : Scope) (var : String × String) =>
      scope.declare var.1 (.field depth var.2)) scope = .ok scope') {i : Handle} {fact : Fact}
    (hi : μ.handleAt? depth = some i) (hfact : store.fact? i = some fact) :
    μ.row store scope' = ⟨(μ.row store scope).facts,
      fields.foldl (fun (values : Entries Value) var => values.insert var.1 (fact.value var.2))
        (μ.row store scope).values⟩ := by
  induction fields generalizing scope with
  | nil =>
    cases h
    rfl
  | cons var rest ih =>
    obtain ⟨scope₁, hfirst, h⟩ := ok_of_bind h
    have hvalue : μ.valueOf store (.field depth var.2) = some (fact.value var.2) := by
      simp only [valueOf, view, hi, WorkingMemory.valueOf, hfact]
    have hwithin : (Declared.field depth var.2).Within depth := Nat.le_refl depth
    rw [ih (R.declare hwithin hfirst) h, row_declare_value R hfirst hwithin rfl hvalue,
      List.foldl_cons]

/-- What a pattern binds of the fact that it matches. -/
theorem row_declarePattern (R : scope.Regular μ.length) {p : Pattern}
    (h : scope.declarePattern p (μ.length + 1) = .ok scope') {i : Handle} {fact : Fact}
    (hfact : store.fact? i = some fact) : Match.row store scope' (μ ++ [.fact i]) =
      ⟨match p.factVar with
        | some name => (μ.row store scope).facts.insert name i
        | none => (μ.row store scope).facts,
      p.fieldVars.foldl (fun (values : Entries Value) var => values.insert var.1 (fact.value var.2))
        (μ.row store scope).values⟩ := by
  have hi : Match.handleAt? (μ ++ [.fact i]) (μ.length + 1) = some i := by
    rw [Match.handleAt?, at?_last]
    rfl
  have R' := R.mono (Nat.le_succ μ.length)
  have hold : Match.row store scope (μ ++ [.fact i]) = μ.row store scope := row_concat R _
  unfold Scope.declarePattern at h
  cases hvar : p.factVar with
  | none =>
    rw [hvar] at h
    rw [row_declare_fields R' h hi hfact, hold]
  | some name =>
    rw [hvar] at h
    obtain ⟨scope₁, hfirst, h⟩ := ok_of_bind h
    have hwithin : (Declared.fact (μ.length + 1) p.type).Within (μ.length + 1) := Nat.le_refl _
    rw [row_declare_fields (R'.declare hwithin hfirst) h hi hfact,
      row_declare_fact R' hfirst (Nat.le_refl _) hi, hold]

/-- What a result is bound to. -/
theorem row_declare_result (R : scope.Regular μ.length) {name : String}
    (h : scope.declare name (.result (μ.length + 1)) = .ok scope') (value : Value) :
    Match.row store scope' (μ ++ [.result value]) =
      ⟨(μ.row store scope).facts, (μ.row store scope).values.insert name value⟩ := by
  have hvalue : Match.valueOf store (μ ++ [.result value]) (.result (μ.length + 1)) =
      some value := by
    simp only [valueOf, view, at?_last]
    rfl
  have hwithin : (Declared.result (μ.length + 1)).Within (μ.length + 1) := Nat.le_refl _
  rw [row_declare_value (R.mono (Nat.le_succ μ.length)) h hwithin rfl hvalue, row_concat R]

end Match

end RuleNet
