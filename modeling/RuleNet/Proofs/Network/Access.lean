/-
  What is asked of the chain of a match, and the steps that answer.

  * `Access`: the value or the moment at a place, or the fact at a depth.
  * `NodeKind.accesses`: what a node asks of the chain of a left token.
  * `Access.Answered`: a step above brings what is asked for.
  * `Scope.Grounded`, `sketches_grounded`: what the steps of a branch ask for, the steps before them answer.
-/
import RuleNet.Proofs.Network.Compile
import RuleNet.Proofs.Network.Sketch

namespace RuleNet

/-! ## Accesses -/

/-- What is asked of a chain: the value that a place holds, the moment of the fact there, or the
    fact itself. -/
inductive Access where
  | value (place : Place)
  | moment (place : Place)
  | handle (depth : Nat)

/-- What binds a variable to the place where it lives. -/
def Place.access : Place → Access
  | .fact depth => .handle depth
  | place => .value place

def TestOperand.accesses : TestOperand Place → List Access
  | .literal _ => []
  | .place p => [.value p]

namespace Test

mutual

/-- What a test asks for. -/
def accesses : Test Place → List Access
  | .compare _ _ operand => operand.accesses
  | .temporal _ other => [.moment other]
  | .all items => accessesOfAll items
  | .any items => accessesOfAll items
  | .not item => accesses item

def accessesOfAll : List (Test Place) → List Access
  | [] => []
  | item :: rest => accesses item ++ accessesOfAll rest

end

theorem mem_accessesOfAll {x : Access} {items : List (Test Place)} :
    x ∈ accessesOfAll items ↔ ∃ item ∈ items, x ∈ item.accesses := by
  induction items with
  | nil => simp [accessesOfAll]
  | cons item rest ih => simp [accessesOfAll, ih]

end Test

namespace Test

variable (view view' : View Place) (fact : Fact) (moment : Moment)

mutual

/-- A test that asks for nothing answers the same whatever the places hold. -/
theorem holds_of_silent : ∀ test : Test Place, test.accesses = [] →
    test.holds view fact moment = test.holds view' fact moment
  | compare field operator operand, h => by
    cases operand with
    | literal value => rw [holds, holds]; rfl
    | place p => cases h
  | temporal relation other, h => by cases h
  | all items, h => by rw [holds, holds, allHold_of_silent items h]
  | any items, h => by rw [holds, holds, anyHolds_of_silent items h]
  | not item, h => by rw [holds, holds, holds_of_silent item h]

theorem allHold_of_silent : ∀ items : List (Test Place), accessesOfAll items = [] →
    allHold view fact moment items = allHold view' fact moment items
  | [], _ => by rw [allHold, allHold]
  | item :: rest, h => by
    obtain ⟨hitem, hrest⟩ := List.append_eq_nil_iff.1 h
    rw [allHold, allHold, holds_of_silent item hitem, allHold_of_silent rest hrest]

theorem anyHolds_of_silent : ∀ items : List (Test Place), accessesOfAll items = [] →
    anyHolds view fact moment items = anyHolds view' fact moment items
  | [], _ => by rw [anyHolds, anyHolds]
  | item :: rest, h => by
    obtain ⟨hitem, hrest⟩ := List.append_eq_nil_iff.1 h
    rw [anyHolds, anyHolds, holds_of_silent item hitem, anyHolds_of_silent rest hrest]

end

end Test

/-- What a feed asks for: what its tests ask for, and the key of its look-up. -/
def Feed.accesses (feed : Feed) : List Access :=
  Test.accessesOfAll feed.tests ++ (feed.index.map fun index => Access.value index.place).toList

/-- What the variables of a scope are bound to. -/
def scopeAccesses (scope : List (String × Place)) : List Access := scope.map fun v => v.2.access

/-- What a node asks for. -/
def NodeKind.accesses : NodeKind → List Access
  | .join feed | .absent feed | .present feed => feed.accesses
  | .accumulate feed _ having =>
    feed.accesses ++ (having.map fun condition => condition.2.accesses).getD []
  | .predicate _ scope => scopeAccesses scope

/-- The key of a look-up is a value that a test asks for. -/
theorem Sketch.mem_accesses_feed {a : AlphaId} {tests : List (Test Place)} {x : Access} :
    x ∈ (Sketch.feed a tests).accesses ↔ x ∈ Test.accessesOfAll tests := by
  rw [Feed.accesses, Sketch.feed, List.mem_append, or_iff_left_of_imp]
  intro hx
  obtain ⟨index, hindex, rfl⟩ := Option.map_eq_some_iff.1 (Option.mem_toList.1 hx)
  obtain ⟨⟨field, place⟩, hhead, rfl⟩ := Option.map_eq_some_iff.1 hindex
  obtain ⟨test, htest, heq⟩ := List.mem_filterMap.1 (List.mem_of_head? hhead)
  refine Test.mem_accessesOfAll.2 ⟨test, htest, ?_⟩
  unfold Test.equalityPlace? at heq
  split at heq
  · cases heq
    exact List.mem_singleton_self _
  · cases heq

/-! ## Answers -/

/-- Something above answers an access: a fact that is asked for was matched at its depth, and its type
    declares the field that is read; a result was folded at its depth. Values are read of fields and
    results only, and moments of facts only. -/
def Access.Answered (matched : Nat → FactType → Prop) (folded : Nat → Prop) : Access → Prop
  | .value (.field depth field) => ∃ type, matched depth type ∧ type.hasField field = true
  | .value (.result depth) => folded depth
  | .value (.fact _) => False
  | .moment (.fact depth) => ∃ type, matched depth type
  | .moment _ => False
  | .handle depth => ∃ type, matched depth type

theorem Access.Answered.imp {matched matched' : Nat → FactType → Prop} {folded folded' : Nat → Prop}
    (hm : ∀ {depth type}, matched depth type → matched' depth type)
    (hf : ∀ {depth}, folded depth → folded' depth) {x : Access} (h : x.Answered matched folded) :
    x.Answered matched' folded' := by
  cases x with
  | value place => cases place with
    | fact depth => exact h
    | field depth field =>
      obtain ⟨type, ht, hfield⟩ := h
      exact ⟨type, hm ht, hfield⟩
    | result depth => exact hf h
  | moment place => cases place with
    | fact depth =>
      obtain ⟨type, ht⟩ := h
      exact ⟨type, hm ht⟩
    | field depth field => exact h
    | result depth => exact h
  | handle depth =>
    obtain ⟨type, ht⟩ := h
    exact ⟨type, hm ht⟩

section
variable {types : Types} {steps : List Sketch}

/-- A step matches facts of a declared type. -/
def MatchedBy (types : Types) (steps : List Sketch) (depth : Nat) (type : FactType) : Prop :=
  ∃ i supply tests, depth = i + 1 ∧ steps[i]? = some (.join supply tests) ∧
    types.find? supply.type = some type

/-- A step folds facts to a result. -/
def FoldedBy (steps : List Sketch) (depth : Nat) : Prop :=
  ∃ i supply tests fold having, depth = i + 1 ∧ steps[i]? = some (.accumulate supply tests fold having)

/-- One of the steps answers an access. -/
def Access.AnsweredBy (types : Types) (steps : List Sketch) (x : Access) : Prop :=
  x.Answered (MatchedBy types steps) (FoldedBy steps)

/-- Without steps nothing is answered. -/
theorem Access.not_answeredBy_nil (x : Access) : ¬ x.AnsweredBy types [] := by
  have hmatched : ∀ {depth type}, ¬ MatchedBy types [] depth type := fun ⟨_, _, _, _, hi, _⟩ =>
    nomatch hi
  have hfolded : ∀ {depth}, ¬ FoldedBy [] depth := fun ⟨_, _, _, _, _, _, hi⟩ => nomatch hi
  intro h
  cases x with
  | value place => cases place with
    | fact depth => exact h
    | field depth field => exact hmatched h.choose_spec.1
    | result depth => exact hfolded h
  | moment place => cases place with
    | fact depth => exact hmatched h.choose_spec
    | field depth field => exact h
    | result depth => exact h
  | handle depth => exact hmatched h.choose_spec

theorem getElem?_append_of_some {α : Type} {xs ys : List α} {i : Nat} {x : α}
    (h : xs[i]? = some x) : (xs ++ ys)[i]? = some x := by
  rw [List.getElem?_append_left (List.getElem?_eq_some_iff.1 h).1]
  exact h

theorem MatchedBy.append {depth : Nat} {type : FactType} (h : MatchedBy types steps depth type)
    (more : List Sketch) : MatchedBy types (steps ++ more) depth type := by
  obtain ⟨i, supply, tests, hd, hi, htype⟩ := h
  exact ⟨i, supply, tests, hd, getElem?_append_of_some hi, htype⟩

theorem FoldedBy.append {depth : Nat} (h : FoldedBy steps depth) (more : List Sketch) :
    FoldedBy (steps ++ more) depth := by
  obtain ⟨i, supply, tests, fold, having, hd, hi⟩ := h
  exact ⟨i, supply, tests, fold, having, hd, getElem?_append_of_some hi⟩

theorem Access.AnsweredBy.append {x : Access} (h : x.AnsweredBy types steps) (more : List Sketch) :
    x.AnsweredBy types (steps ++ more) := h.imp (fun h => h.append more) fun h => h.append more

/-! ## Variables -/

/-- A variable is bound to what a step brings; a fact is of the type that it is declared with. -/
def Declared.Grounded (types : Types) (steps : List Sketch) : Declared → Prop
  | .fact depth name => ∃ type, types.find? name = some type ∧ MatchedBy types steps depth type
  | .field depth name => (Access.value (.field depth name)).AnsweredBy types steps
  | .result depth => (Access.value (.result depth)).AnsweredBy types steps
  | .parameter => False

theorem Declared.Grounded.append {declared : Declared} (h : declared.Grounded types steps)
    (more : List Sketch) : declared.Grounded types (steps ++ more) := by
  cases declared with
  | fact depth name =>
    obtain ⟨type, hname, hmatched⟩ := h
    exact ⟨type, hname, hmatched.append more⟩
  | field depth field => exact Access.AnsweredBy.append h more
  | result depth => exact Access.AnsweredBy.append h more
  | parameter => exact h

namespace Scope

/-- All variables are bound to what steps bring. -/
def Grounded (types : Types) (steps : List Sketch) (scope : Scope) : Prop :=
  ∀ v ∈ scope, v.2.Grounded types steps

variable {scope scope' : Scope}

theorem Grounded.append (h : scope.Grounded types steps) (more : List Sketch) :
    scope.Grounded types (steps ++ more) := fun v hv => (h v hv).append more

theorem Grounded.lookUp (h : scope.Grounded types steps) {name : String} {declared : Declared}
    (hl : scope.lookUp name = .ok declared) : declared.Grounded types steps := by
  have hmem : ∀ {entries : Scope}, Entries.find? name entries = some declared →
      ∃ v ∈ entries, v.2 = declared := by
    intro entries hf
    induction entries with
    | nil => cases hf
    | cons v rest ih =>
      rw [Entries.find?] at hf
      split at hf
      · exact ⟨v, List.mem_cons_self, Option.some.inj hf⟩
      · obtain ⟨w, hw, heq⟩ := ih hf
        exact ⟨w, List.mem_cons_of_mem v hw, heq⟩
  unfold Scope.lookUp at hl
  split at hl
  · next hf =>
    cases hl
    obtain ⟨v, hv, rfl⟩ := hmem hf
    exact h v hv
  · cases hl

theorem Grounded.declare (h : scope.Grounded types steps) {name : String} {declared : Declared}
    (hd : declared.Grounded types steps) (hs : scope.declare name declared = .ok scope') :
    scope'.Grounded types steps := by
  unfold Scope.declare at hs
  split at hs
  · cases hs
  · cases hs
    intro v hv
    rcases Entries.mem_insert hv with rfl | hv
    · exact hd
    · exact h v hv

/-- What a pattern binds is brought by the step that matches it. -/
theorem Grounded.declarePattern (h : scope.Grounded types steps) {p : Pattern} {depth : Nat}
    {type : FactType} (hname : types.find? p.type = some type)
    (hmatched : MatchedBy types steps depth type) (hfields : ∀ v ∈ p.fieldVars, type.hasField v.2 = true)
    (hs : scope.declarePattern p depth = .ok scope') : scope'.Grounded types steps := by
  have hfact : (Declared.fact depth p.type).Grounded types steps := ⟨type, hname, hmatched⟩
  have hfield : ∀ v ∈ p.fieldVars, (Declared.field depth v.2).Grounded types steps :=
    fun v hv => ⟨type, hmatched, hfields v hv⟩
  have hbound : ∀ {scope scope' : Scope}, scope.Grounded types steps →
      p.fieldVars.foldlM (fun (scope : Scope) (v : String × String) =>
        scope.declare v.1 (.field depth v.2)) scope = .ok scope' → scope'.Grounded types steps :=
    fun h hs => foldlM_ok (P := fun scope : Scope => scope.Grounded types steps)
      (fun scope v scope' hv h hs => h.declare (hfield v hv) hs) h hs
  unfold Scope.declarePattern at hs
  split at hs
  · obtain ⟨scope₁, hs₁, hs⟩ := ok_of_bind hs
    exact hbound (h.declare hfact hs₁) hs
  · exact hbound h hs

theorem Grounded.places (h : scope.Grounded types steps) {x : Access}
    (hx : x ∈ scopeAccesses scope.places) : x.AnsweredBy types steps := by
  obtain ⟨⟨name, place⟩, hplace, rfl⟩ := List.mem_map.1 hx
  obtain ⟨⟨name', declared⟩, hv, heq⟩ := List.mem_filterMap.1 hplace
  obtain ⟨place', hp, heq⟩ := Option.map_eq_some_iff.1 heq
  cases heq
  have hd := h _ hv
  cases declared with
  | fact depth name =>
    cases hp
    obtain ⟨type, -, htype⟩ := hd
    exact ⟨type, htype⟩
  | field depth field =>
    cases hp
    exact hd
  | result depth =>
    cases hp
    exact hd
  | parameter => cases hp

/-! ## Tests -/

theorem Grounded.operand (h : scope.Grounded types steps) {operand : Operand} {resolved : TestOperand Place}
    (ho : scope.operand .byDepth types operand = .ok resolved) {x : Access}
    (hx : x ∈ resolved.accesses) : x.AnsweredBy types steps := by
  cases operand with
  | literal value =>
    cases ho
    cases hx
  | var name =>
    obtain ⟨declared, hl, ho⟩ := ok_of_bind ho
    have hd := h.lookUp hl
    cases declared with
    | fact depth type => cases ho
    | field depth field =>
      cases ho
      obtain rfl := List.mem_singleton.1 hx
      exact hd
    | result depth =>
      cases ho
      obtain rfl := List.mem_singleton.1 hx
      exact hd
    | parameter => cases ho
  | field name field =>
    obtain ⟨declared, hl, ho⟩ := ok_of_bind ho
    have hd := h.lookUp hl
    cases declared with
    | fact depth type =>
      obtain ⟨declared, htype, hmatched⟩ := hd
      simp only [htype] at ho
      split at ho
      · next hfield =>
        cases ho
        obtain rfl := List.mem_singleton.1 hx
        exact ⟨declared, hmatched, hfield⟩
      · cases ho
    | field depth field => cases ho
    | result depth => cases ho
    | parameter => cases ho

mutual

/-- A test asks for what its variables are bound to. -/
theorem Grounded.test (h : scope.Grounded types steps) (type : FactType) :
    ∀ {c : Constraint} {test : Test Place}, scope.test .byDepth types type c = .ok test →
      ∀ x ∈ test.accesses, x.AnsweredBy types steps
  | .compare field operator operand, test, ht, x, hx => by
    rw [Scope.test] at ht
    split at ht
    · obtain ⟨resolved, ho, ht⟩ := ok_of_bind ht
      cases ht
      exact h.operand ho hx
    · cases ht
  | .temporal relation name, test, ht, x, hx => by
    rw [Scope.test] at ht
    split at ht
    · obtain ⟨declared, hl, ht⟩ := ok_of_bind ht
      have hd := h.lookUp hl
      cases declared with
      | fact depth target =>
        obtain ⟨declared, -, hmatched⟩ := hd
        dsimp only at ht
        split at ht
        · cases ht
          obtain rfl := List.mem_singleton.1 hx
          exact ⟨declared, hmatched⟩
        · cases ht
      | field depth field => cases ht
      | result depth => cases ht
      | parameter => cases ht
    · cases ht
  | .all items, test, ht, x, hx => by
    rw [Scope.test] at ht
    obtain ⟨tests, hts, ht⟩ := ok_of_bind ht
    cases ht
    exact Grounded.tests h type hts x hx
  | .any items, test, ht, x, hx => by
    rw [Scope.test] at ht
    obtain ⟨tests, hts, ht⟩ := ok_of_bind ht
    cases ht
    exact Grounded.tests h type hts x hx
  | .not item, test, ht, x, hx => by
    rw [Scope.test] at ht
    obtain ⟨inner, hti, ht⟩ := ok_of_bind ht
    cases ht
    exact Grounded.test h type hti x hx

theorem Grounded.tests (h : scope.Grounded types steps) (type : FactType) :
    ∀ {items : List Constraint} {tests : List (Test Place)},
      scope.tests .byDepth types type items = .ok tests →
      ∀ x ∈ Test.accessesOfAll tests, x.AnsweredBy types steps
  | [], tests, ht, x, hx => by
    rw [Scope.tests] at ht
    cases ht
    cases hx
  | item :: rest, tests, ht, x, hx => by
    rw [Scope.tests] at ht
    obtain ⟨first, hfirst, ht⟩ := ok_of_bind ht
    obtain ⟨others, hothers, ht⟩ := ok_of_bind ht
    cases ht
    rcases List.mem_append.1 hx with hx | hx
    · exact Grounded.test h type hfirst x hx
    · exact Grounded.tests h type hothers x hx

end

/-- The tests that a pattern leaves for its node are among those it asks for. -/
theorem Grounded.supply (h : scope.Grounded types steps) {p : Pattern} {type : FactType}
    {supply : Supply} {tests : List (Test Place)}
    (hs : p.supply types scope type = .ok (supply, tests)) :
    supply.type = type.name ∧ ∀ x ∈ Test.accessesOfAll tests, x.AnsweredBy types steps := by
  obtain ⟨all, hall, hs⟩ := ok_of_bind hs
  have hjoined := List.partition_eq_filter_filter (p := fun item : Constraint × Test Place =>
    item.1.isConstant) (l := p.constraints.zip all)
  rw [hjoined] at hs
  cases hs
  refine ⟨rfl, fun x hx => ?_⟩
  obtain ⟨test, htest, hx⟩ := Test.mem_accessesOfAll.1 hx
  obtain ⟨⟨c, test'⟩, hmem, rfl⟩ := List.mem_map.1 htest
  have hzip := (List.mem_filter.1 hmem).1
  exact h.tests type hall x (Test.mem_accessesOfAll.2 ⟨test', (List.of_mem_zip hzip).2, hx⟩)

end Scope

/-! ## Branches -/

theorem Scope.grounded_nil (types : Types) (steps : List Sketch) : Scope.Grounded types steps [] :=
  fun _ hv => by cases hv

theorem hasField_of_checkPattern {p : Pattern} {type : FactType}
    (h : checkPattern types p = .ok type) : ∀ v ∈ p.fieldVars, type.hasField v.2 = true := by
  intro v hv
  apply Decidable.byContradiction
  intro hno
  have htype := find?_of_checkPattern h
  cases hfind : p.fieldVars.find? fun v => !type.hasField v.2 with
  | none =>
    have hv := List.find?_eq_none.1 hfind v hv
    simp [hno] at hv
  | some w =>
    obtain ⟨name, field⟩ := w
    simp only [checkPattern, htype, hfind] at h
    cases h

/-- An element asks for what the steps before it bring, and binds what its own step brings. -/
theorem Element.sketch_grounded (N : types.Named) {scope scope' : Scope} (h : scope.Grounded types steps)
    {e : Element} {sketch : Sketch}
    (hs : e.sketch types scope steps.length = .ok (sketch, scope')) :
    (∀ a, ∀ x ∈ (sketch.kind a).accesses, x.AnsweredBy types steps) ∧
      scope'.Grounded types (steps ++ [sketch]) := by
  -- the feed of a pattern asks for what the pattern's tests ask for
  have hfeed : ∀ {p : Pattern} {type : FactType} {supply : Supply} {tests : List (Test Place)},
      p.supply types scope type = .ok (supply, tests) → ∀ a, ∀ x ∈ (Sketch.feed a tests).accesses,
        x.AnsweredBy types steps := fun hsupply a x hx =>
    (h.supply hsupply).2 x (Sketch.mem_accesses_feed.1 hx)
  have hlast : ∀ sketch : Sketch, (steps ++ [sketch])[steps.length]? = some sketch := fun sketch => by
    rw [List.getElem?_append_right (Nat.le_refl _), Nat.sub_self]
    rfl
  cases e.sketched hs with
  | pattern htype hsupply hscope =>
    have hfind := find?_of_checkPattern htype
    refine ⟨hfeed hsupply, (h.append _).declarePattern hfind ?_ (hasField_of_checkPattern htype)
      hscope⟩
    exact ⟨steps.length, _, _, rfl, hlast _,
      ((h.supply hsupply).1.trans (N _ _ hfind)).symm ▸ hfind⟩
  | absent _ _ hsupply | present _ _ hsupply => exact ⟨hfeed hsupply, h.append _⟩
  | @every _ _ type _ _ _ _ _ hsupply hrequired =>
    refine ⟨fun a x hx => ?_, h.append _⟩
    obtain ⟨test, htest, hx⟩ := Test.mem_accessesOfAll.1 (Sketch.mem_accesses_feed.1 hx)
    rcases List.mem_append.1 htest with htest | htest
    · exact (h.supply hsupply).2 x (Test.mem_accessesOfAll.2 ⟨test, htest, hx⟩)
    · obtain rfl := List.mem_singleton.1 htest
      exact h.tests type hrequired x hx
  | @accumulate acc _ supply tests having _ _ _ _ hsupply hhaving hscope =>
    have hresult : (Declared.result (steps.length + 1)).Grounded types
        (steps ++ [.accumulate supply tests acc.fold having]) :=
      ⟨steps.length, supply, tests, acc.fold, having, rfl, hlast _⟩
    refine ⟨fun a x hx => ?_, (h.append _).declare hresult hscope⟩
    rcases List.mem_append.1 hx with hx | hx
    · exact hfeed hsupply a x hx
    · generalize acc.having = given at hhaving
      cases hhaving with
      | none => cases hx
      | some hasked => exact h.operand hasked.2 hx
  | predicate p => exact ⟨fun a x hx => h.places hx, h.append _⟩

/-- Each step of a branch asks for what the steps before it bring, and the variables in the end are
    bound to what all of them bring. -/
theorem sketches_grounded (N : types.Named) {scope scope' : Scope} (h : scope.Grounded types steps)
    {branch : List Element} {more : List Sketch}
    (hs : sketches types scope steps.length branch = .ok (more, scope')) :
    (∀ done sketch rest, more = done ++ sketch :: rest → ∀ a, ∀ x ∈ (sketch.kind a).accesses,
      x.AnsweredBy types (steps ++ done)) ∧ scope'.Grounded types (steps ++ more) := by
  induction branch generalizing scope steps more with
  | nil =>
    cases hs
    refine ⟨fun done sketch rest hdone => ?_, ?_⟩
    · cases done <;> cases hdone
    · rw [List.append_nil]
      exact h
  | cons e branch ih =>
    obtain ⟨⟨first, scope₁⟩, hfirst, hs⟩ := ok_of_bind hs
    obtain ⟨⟨others, scope₂⟩, hothers, hs⟩ := ok_of_bind hs
    cases hs
    obtain ⟨hasked, hscope⟩ := Element.sketch_grounded N h hfirst
    have hlength : (steps ++ [first]).length = steps.length + 1 := List.length_append
    obtain ⟨hrest, hscope'⟩ := ih hscope (hlength ▸ hothers)
    rw [List.append_assoc, List.singleton_append] at hscope'
    refine ⟨fun done sketch rest hdone => ?_, hscope'⟩
    cases done with
    | nil =>
      obtain ⟨rfl, rfl⟩ := List.cons.inj hdone
      rw [List.append_nil]
      exact hasked
    | cons first' done =>
      rw [List.cons_append] at hdone
      obtain ⟨rfl, hothers⟩ := List.cons.inj hdone
      have hsplit := hrest done sketch rest hothers
      rw [List.append_assoc, List.singleton_append] at hsplit
      exact hsplit

end

end RuleNet
