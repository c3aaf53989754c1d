/-
  The network of a rule base.

  * `Network.Proper`: a network that is well formed and folds what may be folded.
  * `Network.Proper.addRule`, `Network.Proper.compile`: rules and queries keep it so.
  * `Declarations.proper_build`, `Declarations.wellFormed_build`: the network of a rule base.
  * `Declarations.build_of_passes`: a rule base that is built and passes a test.
-/
import RuleNet.Proofs.Condition.Leaves

namespace RuleNet

/-- A network that is well formed, whose accumulators fold what is allowed. -/
structure Network.Proper (net : Network) (Q : String → Fold → Prop) : Prop where
  wellFormed : net.WellFormed
  folds : net.Folds Q

/-- The folds of some conditions are allowed. -/
def FoldsAllowed (types : Types) (Q : String → Fold → Prop) (leaves : List Condition) : Prop :=
  ∀ acc type, .accumulate acc ∈ leaves → types.find? acc.source.type = some type →
    Q type.name acc.fold

namespace Network.Proper

variable {net net' : Network} {types : Types} {Q : String → Fold → Prop}

theorem addBranch (h : net.Proper Q) {rule : Nat} {branch : List Element} {leaves : List Condition}
    (hstems : ∀ e ∈ branch, ∃ leaf ∈ leaves, e.Stems leaf) (hQ : FoldsAllowed types Q leaves)
    (hb : net.addBranch types rule branch = .ok net') : net'.Proper Q := by
  obtain ⟨g, hg, hb⟩ := ok_of_bind hb
  cases hb
  have S : g.Sane Q := by
    refine foldlM_ok (P := fun g => g.Sane Q) (fun g e g' he S hg' => ?_) ?_ hg
    · refine S.addElement (fun acc type hacc htype => ?_) hg'
      subst hacc
      obtain ⟨leaf, hleaf, hstem⟩ := hstems _ he
      cases hstem
      exact hQ acc type hleaf htype
    · exact ⟨h.wellFormed, (fun p hp => by cases hp), h.folds⟩
  refine ⟨S.wellFormed.addTerminal S.holds rule g.scope, ?_⟩
  have E := g.net.ends_addTerminal rule g.last g.scope
  exact S.folds.congr E.alphas E.kind?

theorem addRule (h : net.Proper Q) {rule : Nat} {condition : Condition}
    (hQ : FoldsAllowed types Q condition.leaves)
    (hr : net.addRule types rule condition = .ok net') : net'.Proper Q := by
  obtain ⟨branches, hb, hr⟩ := ok_of_bind hr
  have hstems := Condition.stems_of_normalize hb
  exact foldlM_ok (P := fun net => net.Proper Q)
    (fun net branch net' hmem h hadd => h.addBranch (hstems branch hmem) hQ hadd) h hr

/-! ## Queries -/

/-- A network may get more memories and more fields to look up. -/
theorem stores (h : net.Proper Q) (hs : net.Stores net') (W : net'.WellFormed) : net'.Proper Q :=
  ⟨W, h.folds.stores hs⟩

theorem source (h : net.Proper Q) {d : Drafting} (hd : d.net = net) {pattern : Pattern}
    {type : FactType} {source : Source} (hs : d.source types pattern = .ok (type, source, net')) :
    net'.Proper Q := by
  subst hd
  obtain ⟨type', -, hs⟩ := ok_of_bind hs
  obtain ⟨constant, -, hs⟩ := ok_of_bind hs
  rcases ha : d.net.alphaFor type'.name constant pattern.window with ⟨a, net₁⟩
  simp only [ha] at hs
  obtain ⟨tests, -, hs⟩ := ok_of_bind hs
  have h₁ := h.stores (Network.alphaFor_spec ha).1 (h.wellFormed.alphaFor ha)
  cases hs
  split
  · exact h₁.stores (net₁.stores_indexField a _) (h₁.wellFormed.indexField a _)
  · exact h₁

theorem draft {d d' : Drafting} (h : d.net.Proper Q) {e : Element}
    (hd : d.addElement types e = .ok d') : d'.net.Proper Q := by
  cases e with
  | pattern pattern =>
    obtain ⟨⟨type, source, net⟩, hs, hd⟩ := ok_of_bind hd
    obtain ⟨scope, -, hd⟩ := ok_of_bind hd
    cases hd
    exact h.source rfl hs
  | absent pattern | present pattern =>
    obtain ⟨-, -, hd⟩ := ok_of_bind hd
    obtain ⟨⟨type, source, net⟩, hs, hd⟩ := ok_of_bind hd
    cases hd
    exact h.source rfl hs
  | every base require =>
    obtain ⟨-, -, hd⟩ := ok_of_bind hd
    obtain ⟨⟨type, source, net⟩, hs, hd⟩ := ok_of_bind hd
    obtain ⟨required, -, hd⟩ := ok_of_bind hd
    cases hd
    exact h.source rfl hs
  | accumulate acc =>
    obtain ⟨-, -, hd⟩ := ok_of_bind hd
    obtain ⟨type, -, hd⟩ := ok_of_bind hd
    obtain ⟨-, -, hd⟩ := ok_of_bind hd
    obtain ⟨⟨type', source, net⟩, hs, hd⟩ := ok_of_bind hd
    have hnet : d'.net = net := by
      simp only at hd
      split at hd
      · obtain ⟨operand, -, hd⟩ := ok_of_bind hd
        obtain ⟨having, -, hd⟩ := ok_of_bind hd
        obtain ⟨scope, -, hd⟩ := ok_of_bind hd
        cases hd
        rfl
      · obtain ⟨having, -, hd⟩ := ok_of_bind hd
        obtain ⟨scope, -, hd⟩ := ok_of_bind hd
        cases hd
        rfl
    rw [hnet]
    exact h.source rfl hs
  | predicate p =>
    cases hd
    exact h

theorem compileBranches (h : net.Proper Q) {parameters : List String} {bs : Branches}
    {plans : List (List PlanStep)}
    (hp : Plan.compileBranches types parameters net bs = .ok (plans, net')) : net'.Proper Q := by
  induction bs generalizing net plans with
  | nil =>
    cases hp
    exact h
  | cons branch rest ih =>
    obtain ⟨⟨steps, net₁⟩, hb, hp⟩ := ok_of_bind hp
    obtain ⟨⟨others, net₂⟩, hrest, hp⟩ := ok_of_bind hp
    cases hp
    obtain ⟨scope, -, hb⟩ := ok_of_bind hb
    obtain ⟨d, hd, hb⟩ := ok_of_bind hb
    cases hb
    refine ih (foldlM_ok (P := fun d => d.net.Proper Q) (fun d e d' _ h hd => h.draft hd) ?_ hd) hrest
    exact h

theorem compile (h : net.Proper Q) {query : Query} {plan : Plan}
    (hp : Plan.compile types net query = .ok (plan, net')) : net'.Proper Q := by
  obtain ⟨branches, -, hp⟩ := ok_of_bind hp
  obtain ⟨⟨steps, net₁⟩, hb, hp⟩ := ok_of_bind hp
  cases hp
  exact h.compileBranches hb

theorem finish (h : net.Proper Q) : net.finish.Proper Q :=
  h.stores net.stores_finish h.wellFormed.finish

end Network.Proper

/-! ## Assembly -/

/-- Types are found under their own names. -/
def Types.Named (types : Types) : Prop :=
  ∀ name type, types.find? name = some type → type.name = name

namespace Assembly

variable {a : Assembly} {Q : String → Fold → Prop}

theorem named_addType (h : a.types.Named) (type : FactType) : (a.addType type).types.Named := by
  unfold addType
  split
  · exact h
  · intro name found hfind
    simp only [Entries.find?_insert] at hfind
    split at hfind
    · next heq =>
      cases hfind
      exact heq
    · exact h name found hfind

theorem types_addRule (rule : Rule) (place : Nat) : (a.addRule rule place).types = a.types := by
  unfold addRule
  dsimp only
  split <;> rfl

theorem types_addQuery (query : Query) : (a.addQuery query).types = a.types := by
  unfold addQuery
  split
  · rfl
  · split <;> rfl

theorem network_addType (type : FactType) : (a.addType type).network = a.network := by
  unfold addType
  split <;> rfl

/-- A rule is added, or left out because something is wrong with it. -/
theorem proper_addRule (h : a.network.Proper Q) {rule : Rule} (place : Nat)
    (hQ : FoldsAllowed a.types Q rule.condition.leaves) :
    (a.addRule rule place).network.Proper Q := by
  unfold addRule
  dsimp only
  split
  · next network hn => exact h.addRule hQ hn
  · exact h

theorem proper_addQuery (h : a.network.Proper Q) (query : Query) :
    (a.addQuery query).network.Proper Q := by
  unfold addQuery
  split
  · exact h
  · split
    · next hp => exact h.compile hp
    · exact h

end Assembly

namespace Declarations

variable {declarations : Declarations} {base : RuleBase} {Q : String → Fold → Prop}

/-- The types that are declared; of a repeated name the first one stands. -/
def typesOf (declarations : Declarations) : Types :=
  (declarations.types.foldl Assembly.addType .empty).types

theorem named_typesOf (declarations : Declarations) : declarations.typesOf.Named :=
  List.foldlRecOn _ _ (motive := fun a : Assembly => a.types.Named)
    (fun _ _ hfind => by cases hfind) fun a h type _ => a.named_addType h type

/-- What types, rules and queries keep holds of the whole. -/
theorem assemble_ind {P : Assembly → Prop} (empty : P .empty)
    (addType : ∀ a, ∀ type ∈ declarations.types, P a → P (a.addType type))
    (addRule : ∀ a, ∀ rule ∈ declarations.rules, ∀ place, a.types = declarations.typesOf → P a →
      P (a.addRule rule place))
    (addQuery : ∀ a, ∀ query ∈ declarations.queries, a.types = declarations.typesOf → P a →
      P (a.addQuery query)) :
    declarations.assemble.types = declarations.typesOf ∧ P declarations.assemble := by
  have htypes : P (declarations.types.foldl Assembly.addType .empty) :=
    List.foldlRecOn _ _ (motive := P) empty fun a h type ht => addType a type ht h
  have hrules : ∀ a, a.types = declarations.typesOf ∧ P a →
      let a' := declarations.rules.zipIdx.foldl (fun a rule => a.addRule rule.1 rule.2) a
      a'.types = declarations.typesOf ∧ P a' := fun a ha =>
    List.foldlRecOn _ _ (motive := fun a => a.types = declarations.typesOf ∧ P a) ha
      fun a h rule hr => ⟨(a.types_addRule _ _).trans h.1,
        addRule a rule.1 (List.fst_mem_of_mem_zipIdx hr) rule.2 h.1 h.2⟩
  exact List.foldlRecOn _ _ (motive := fun a => a.types = declarations.typesOf ∧ P a)
    (hrules _ ⟨rfl, htypes⟩) fun a h query hq => ⟨(a.types_addQuery _).trans h.1,
      addQuery a query hq h.1 h.2⟩

theorem types_assemble (declarations : Declarations) :
    declarations.assemble.types = declarations.typesOf :=
  (assemble_ind (P := fun _ => True) trivial (fun _ _ _ _ => trivial)
    (fun _ _ _ _ _ _ => trivial) fun _ _ _ _ _ => trivial).1

/-- Types come without a network. -/
theorem network_addTypes (types : List FactType) :
    (types.foldl Assembly.addType .empty).network = .empty :=
  List.foldlRecOn _ _ (motive := fun a : Assembly => a.network = .empty) rfl
    fun a h type _ => (a.network_addType type).trans h

/-- A rule base is what was assembled, with nothing wrong. -/
theorem build_eq (h : declarations.build = .ok base) : declarations.problems = [] ∧
    base = ⟨declarations.typesOf, declarations.rules, declarations.assemble.queries,
      declarations.assemble.network.finish⟩ := by
  unfold build at h
  simp only at h
  split at h
  · next hnone =>
    cases h
    exact ⟨List.isEmpty_iff.1 hnone, by rw [types_assemble]⟩
  · cases h

/-- The network of a rule base. -/
theorem proper_build (h : declarations.build = .ok base)
    (hQ : ∀ rule ∈ declarations.rules, FoldsAllowed base.types Q rule.condition.leaves) :
    base.network.Proper Q := by
  obtain ⟨-, rfl⟩ := build_eq h
  refine Network.Proper.finish ?_
  refine (assemble_ind (P := fun a => a.network.Proper Q) ?_ ?_ ?_ ?_).2
  · exact ⟨Network.wellFormed_empty, fun n feed fold having hk => by cases hk⟩
  · intro a type _ ha
    rw [a.network_addType]
    exact ha
  · intro a rule hr place htypes ha
    exact Assembly.proper_addRule ha place (htypes ▸ hQ rule hr)
  · intro a query _ _ ha
    exact Assembly.proper_addQuery ha query

theorem wellFormed_build (h : declarations.build = .ok base) : base.network.WellFormed :=
  (proper_build (Q := fun _ _ => True) h fun _ _ _ _ _ _ => trivial).wellFormed

/-- Whether declarations can be built, and the rule base passes a test. -/
def passes (declarations : Declarations) (p : RuleBase → Bool) : Bool :=
  match declarations.build with
  | .ok base => p base
  | .error _ => false

theorem build_of_passes (declarations : Declarations) (p : RuleBase → Bool)
    (h : declarations.passes p = true) : ∃ base, declarations.build = .ok base ∧ p base = true := by
  unfold passes at h
  split at h
  · next base hb => exact ⟨base, hb, h⟩
  · cases h

end Declarations

end RuleNet
