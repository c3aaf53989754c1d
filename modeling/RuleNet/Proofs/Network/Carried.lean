/-
  The network of a rule base carries all of its rules.

  * `Network.Carries`: every terminal ends the place of a branch, and every branch has a terminal.
  * `Network.Carries.addRule`: a rule comes with its branches.
  * `Network.Furnishes`: queries bring memories and fields to look up, and no more.
  * `Declarations.carries_build`: the network of a rule base carries the branches of its rules.
  * `Network.Inductive`, `Declarations.network_induction`: what the empty network has and every step of a
    build keeps, the network of a rule base has.
-/
import RuleNet.Proofs.Network.Compile
import RuleNet.Proofs.Network.Dispatch
import RuleNet.Proofs.Query.Outline

namespace RuleNet

/-- The branches of rules, each with the place of its rule. -/
def BranchOf (rules : List Rule) (place : Nat) (branch : List Element) : Prop :=
  ∃ rule branches, rules[place]? = some rule ∧ rule.condition.normalize = .ok branches ∧
    branch ∈ branches

theorem branchOf_concat {rules : List Rule} {rule : Rule} {branches : Branches}
    (h : rule.condition.normalize = .ok branches) (place : Nat) (branch : List Element) :
    BranchOf (rules ++ [rule]) place branch ↔
      BranchOf rules place branch ∨ (place = rules.length ∧ branch ∈ branches) := by
  unfold BranchOf
  rcases Nat.lt_trichotomy place rules.length with hlt | rfl | hlt
  · rw [List.getElem?_append_left hlt]
    exact ⟨Or.inl, fun h => h.resolve_right fun he => absurd he.1 (Nat.ne_of_lt hlt)⟩
  · rw [List.getElem?_concat_length, List.getElem?_eq_none (Nat.le_refl _)]
    constructor
    · rintro ⟨rule', branches', hrule, hbranches, hmem⟩
      cases hrule
      cases h.symm.trans hbranches
      exact Or.inr ⟨rfl, hmem⟩
    · rintro (⟨rule', branches', hrule, -⟩ | ⟨-, hmem⟩)
      · cases hrule
      · exact ⟨rule, branches, rfl, h, hmem⟩
  · have hnone : (rules ++ [rule])[place]? = none := by
      rw [List.getElem?_eq_none_iff, List.length_append, List.length_singleton]
      omega
    rw [hnone, List.getElem?_eq_none (Nat.le_of_lt hlt)]
    constructor
    · rintro ⟨rule', branches', hrule, -⟩
      cases hrule
    · rintro (⟨rule', branches', hrule, -⟩ | ⟨hplace, -⟩)
      · cases hrule
      · omega

namespace Network

variable {net net' net'' : Network} {types : Types} {P P' : Nat → List Element → Prop}

/-- The network carries branches: every terminal ends the place of one of them, and each of them
    has a terminal. -/
structure Carries (net : Network) (types : Types) (P : Nat → List Element → Prop) : Prop where
  wellFormed : net.WellFormed
  dispatched : net.Dispatched
  drawn : ∀ {τ terminal}, net.terminal? τ = some terminal →
    ∃ branch, P terminal.rule branch ∧ net.Draws types branch terminal
  complete : ∀ {place branch}, P place branch → ∃ τ terminal, net.terminal? τ = some terminal ∧
    terminal.rule = place ∧ net.Draws types branch terminal
  asked : ∀ {n p places}, net.kind? n = some (.predicate p places) →
    ∃ place branch, P place branch ∧ .predicate p ∈ branch

namespace Carries

theorem of_iff (h : net.Carries types P) (hP : ∀ place branch, P place branch ↔ P' place branch) :
    net.Carries types P' where
  wellFormed := h.wellFormed
  dispatched := h.dispatched
  drawn hτ := by
    obtain ⟨branch, hbranch, hd⟩ := h.drawn hτ
    exact ⟨branch, (hP _ _).1 hbranch, hd⟩
  complete hbranch := h.complete ((hP _ _).2 hbranch)
  asked hk := by
    obtain ⟨place, branch, hbranch, hp⟩ := h.asked hk
    exact ⟨place, branch, (hP _ _).1 hbranch, hp⟩

/-! ## Rules -/

/-- A branch comes with its terminal. -/
theorem addBranch (h : net.Carries types P) {rule : Nat} {branch : List Element}
    (hb : net.addBranch types rule branch = .ok net') :
    net'.Carries types fun place b => P place b ∨ (place = rule ∧ b = branch) := by
  obtain ⟨W, E, ⟨terminal, hrule, hd, hterminal⟩, hasked⟩ := h.wellFormed.draws_addBranch hb
  refine ⟨W, ?_, fun {τ t} hτ => ?_, fun {place b} hP => ?_, fun {n p places} hk => ?_⟩
  · rw [addBranch_eq] at hb
    cases hsteps : sketches types [] 0 branch with
    | error d => rw [hsteps] at hb; cases hb
    | ok s =>
      rw [hsteps] at hb
      cases hb
      exact (h.dispatched.followAll _ _).addTerminal _ _ _
  · rw [hterminal] at hτ
    split at hτ
    · cases hτ
      exact ⟨branch, .inr ⟨hrule, rfl⟩, hd⟩
    · obtain ⟨b, hP, hdrawn⟩ := h.drawn hτ
      exact ⟨b, .inl hP, hdrawn.extend E h.wellFormed⟩
  · rcases hP with hP | ⟨rfl, rfl⟩
    · obtain ⟨τ, t, hτ, hplace, hdrawn⟩ := h.complete hP
      exact ⟨τ, t, E.terminals hτ, hplace, hdrawn.extend E h.wellFormed⟩
    · exact ⟨_, terminal, (hterminal _).trans (if_pos rfl), hrule, hd⟩
  · rcases hasked hk with hk | hp
    · obtain ⟨place, b, hP, hp⟩ := h.asked hk
      exact ⟨place, b, .inl hP, hp⟩
    · exact ⟨rule, branch, .inr ⟨rfl, rfl⟩, hp⟩

theorem addBranches (h : net.Carries types P) {rule : Nat} {branches : Branches}
    (hb : branches.foldlM (fun net branch => net.addBranch types rule branch) net = .ok net') :
    net'.Carries types fun place b => P place b ∨ (place = rule ∧ b ∈ branches) := by
  induction branches generalizing net P with
  | nil =>
    cases hb
    exact h.of_iff fun place b => by simp
  | cons branch rest ih =>
    obtain ⟨net₁, hbranch, hrest⟩ := ok_of_bind hb
    refine (ih (h.addBranch hbranch) hrest).of_iff fun place b => ?_
    rw [List.mem_cons, or_assoc, ← and_or_left]

/-- A rule comes with its branches. -/
theorem addRule (h : net.Carries types P) {rule : Nat} {condition : Condition}
    (hr : net.addRule types rule condition = .ok net') :
    ∃ branches, condition.normalize = .ok branches ∧
      net'.Carries types fun place b => P place b ∨ (place = rule ∧ b ∈ branches) := by
  obtain ⟨branches, hbranches, hr⟩ := ok_of_bind hr
  exact ⟨branches, hbranches, h.addBranches hr⟩

end Carries

/-! ## Queries -/

/-- A network has got more memories and more fields to look up. -/
structure Furnishes (net net' : Network) : Prop where
  stores : net.Stores net'
  wellFormed : net.WellFormed → net'.WellFormed
  dispatched : net.Dispatched → net'.Dispatched

namespace Furnishes

theorem refl (net : Network) : net.Furnishes net := ⟨.refl net, id, id⟩

theorem trans (h : net.Furnishes net') (h' : net'.Furnishes net'') : net.Furnishes net'' :=
  ⟨h.stores.trans h'.stores, fun W => h'.wellFormed (h.wellFormed W),
    fun D => h'.dispatched (h.dispatched D)⟩

theorem supplied (net : Network) (supply? : Option Supply) :
    net.Furnishes (net.supplied supply?).2 := by
  cases supply? with
  | none => exact .refl net
  | some supply => exact ⟨(alphaFor_spec rfl).1, fun W => W.alphaFor rfl, fun D => D.alphaFor rfl⟩

theorem findable (net : Network) (a : AlphaId) (lookUp : Option (String × Reference)) :
    net.Furnishes (net.findable a lookUp) := by
  cases lookUp with
  | none => exact .refl net
  | some l => exact ⟨net.stores_indexField a l.1, fun W => W.indexField a l.1,
      fun D => D.indexField a l.1⟩

theorem place (net : Network) (outline : Outline) : net.Furnishes (net.place outline).2 :=
  (supplied net outline.supply?).trans (findable _ _ _)

theorem addElement {d d' : Drafting} {e : Element} (h : d.addElement types e = .ok d') :
    d.net.Furnishes d'.net := by
  rw [Drafting.addElement_eq] at h
  cases houtline : e.outline types d.scope d.depth with
  | error defect => rw [houtline] at h; cases h
  | ok s =>
    rw [houtline] at h
    cases h
    exact place d.net s.1

theorem compileBranches {parameters : List String} {branches : Branches}
    {plans : List (List PlanStep)}
    (h : Plan.compileBranches types parameters net branches = .ok (plans, net')) :
    net.Furnishes net' := by
  induction branches generalizing net plans with
  | nil =>
    cases h
    exact .refl _
  | cons branch rest ih =>
    obtain ⟨⟨steps, net₁⟩, hbranch, h⟩ := ok_of_bind h
    obtain ⟨⟨others, net₂⟩, hrest, h⟩ := ok_of_bind h
    cases h
    obtain ⟨scope, -, hbranch⟩ := ok_of_bind hbranch
    obtain ⟨d, hd, hbranch⟩ := ok_of_bind hbranch
    cases hbranch
    have hfirst := foldlM_ok (P := fun d : Drafting => Furnishes _ d.net)
      (fun d e d' _ hf hd => hf.trans (addElement hd)) (refl net) hd
    exact hfirst.trans (ih hrest)

theorem compile {query : Query} {plan : Plan}
    (h : Plan.compile types net query = .ok (plan, net')) : net.Furnishes net' := by
  obtain ⟨branches, -, h⟩ := ok_of_bind h
  obtain ⟨⟨steps, net₁⟩, hbranches, h⟩ := ok_of_bind h
  cases h
  exact compileBranches hbranches

theorem finish (net : Network) : net.Furnishes net.finish :=
  ⟨net.stores_finish, .finish, .finish⟩

end Furnishes

/-- What comes for queries leaves the branches in their places. -/
theorem Carries.furnish (h : net.Carries types P) (F : net.Furnishes net') :
    net'.Carries types P where
  wellFormed := F.wellFormed h.wellFormed
  dispatched := F.dispatched h.dispatched
  drawn {τ terminal} hτ := by
    rw [terminal?, F.stores.terminals] at hτ
    obtain ⟨branch, hP, hd⟩ := h.drawn hτ
    exact ⟨branch, hP, hd.extend F.stores.extends h.wellFormed⟩
  complete hP := by
    obtain ⟨τ, terminal, hτ, hplace, hd⟩ := h.complete hP
    exact ⟨τ, terminal, F.stores.extends.terminals hτ, hplace,
      hd.extend F.stores.extends h.wellFormed⟩
  asked hk := by
    rw [F.stores.kind?] at hk
    exact h.asked hk

end Network

/-! ## Assembly -/

namespace Assembly

variable {a : Assembly}

/-- A rule with which nothing is wrong has been added. -/
theorem addRule_ok {rule : Rule} {place : Nat} (h : (a.addRule rule place).problems = []) :
    a.problems = [] ∧
      a.network.addRule a.types place rule.condition = .ok (a.addRule rule place).network := by
  unfold addRule at h ⊢
  dsimp only [report] at h ⊢
  split at h
  · next network hn =>
    rw [hn]
    exact ⟨(List.append_eq_nil_iff.1 h).1, rfl⟩
  · cases (List.append_eq_nil_iff.1 h).2

theorem furnishes_addQuery (a : Assembly) (query : Query) :
    a.network.Furnishes (a.addQuery query).network := by
  unfold addQuery
  split
  · exact .refl _
  · split
    · next hp => exact .compile hp
    · exact .refl _

theorem problems_addQuery {query : Query} (h : (a.addQuery query).problems = []) :
    a.problems = [] := by
  unfold addQuery at h
  split at h
  · cases (List.append_eq_nil_iff.1 h).2
  · split at h
    · exact h
    · cases (List.append_eq_nil_iff.1 h).2

/-- Rules come one after the other. -/
theorem carries_addRules (rules : List Rule) {done : List Rule}
    (h : a.problems = [] → a.network.Carries a.types (BranchOf done)) :
    let b := (rules.zipIdx done.length).foldl (fun a rule => a.addRule rule.1 rule.2) a
    b.problems = [] → b.network.Carries a.types (BranchOf (done ++ rules)) := by
  induction rules generalizing a done with
  | nil =>
    rw [List.append_nil]
    exact h
  | cons rule rest ih =>
    have hnext := @ih (a.addRule rule done.length) (done ++ [rule]) fun hnone => by
      obtain ⟨hnone, hadded⟩ := addRule_ok hnone
      obtain ⟨branches, hbranches, hcarries⟩ := (h hnone).addRule hadded
      rw [types_addRule]
      exact hcarries.of_iff fun place branch => (branchOf_concat hbranches place branch).symm
    rw [List.length_append, List.length_singleton, types_addRule, List.append_assoc] at hnext
    exact hnext

theorem carries_addQueries {types : Types} {P : Nat → List Element → Prop} (queries : List Query)
    (h : a.problems = [] → a.network.Carries types P) :
    (queries.foldl addQuery a).problems = [] →
      (queries.foldl addQuery a).network.Carries types P :=
  List.foldlRecOn queries addQuery
    (motive := fun a => a.problems = [] → a.network.Carries types P) h
    fun a h query _ hnone => (h (problems_addQuery hnone)).furnish (a.furnishes_addQuery query)

end Assembly

/-- The network without anything carries no branch. -/
theorem Network.carries_empty (types : Types) :
    Network.empty.Carries types (BranchOf []) where
  wellFormed := wellFormed_empty
  dispatched := dispatched_empty
  drawn hτ := by cases hτ
  complete hP := by
    obtain ⟨rule, branches, hrule, -⟩ := hP
    cases hrule
  asked hk := by cases hk

/-- The network of a rule base carries the branches of its rules. -/
theorem Declarations.carries_build {declarations : Declarations} {base : RuleBase}
    (h : declarations.build = .ok base) :
    base.network.Carries base.types (BranchOf base.rules) := by
  obtain ⟨hproblems, rfl⟩ := build_eq h
  refine Network.Carries.furnish ?_ (.finish _)
  refine Assembly.carries_addQueries declarations.queries ?_ hproblems
  refine @Assembly.carries_addRules _ declarations.rules [] fun _ => ?_
  rw [network_addTypes]
  exact Network.carries_empty _

/-! ## Whatever is built -/

namespace Network

/-- What the empty network has and every step of a build keeps. -/
structure Inductive (types : Types) (P : Network → Prop) : Prop where
  empty : P .empty
  supplied : ∀ {net : Network} (supply : Supply), net.WellFormed → P net →
    P (net.supplied (some supply)).2
  indexField : ∀ {net : Network} (a : AlphaId) (field : String), net.WellFormed → P net →
    P (net.indexField a field)
  addBranch : ∀ {net net' : Network} {rule : Nat} {branch : List Element}, net.WellFormed → P net →
    net.addBranch types rule branch = .ok net' → P net'
  finish : ∀ {net : Network}, net.WellFormed → P net → P net.finish

namespace Inductive

variable {types : Types} {P : Network → Prop} {net net' : Network}

/-- What is kept goes with being well formed. -/
theorem wellFormed (H : Inductive types P) : Inductive types fun net => net.WellFormed ∧ P net where
  empty := ⟨wellFormed_empty, H.empty⟩
  supplied supply W h := ⟨W.alphaFor rfl, H.supplied supply W h.2⟩
  indexField a field W h := ⟨W.indexField a field, H.indexField a field W h.2⟩
  addBranch W h hb := ⟨(W.draws_addBranch hb).1, H.addBranch W h.2 hb⟩
  finish W h := ⟨W.finish, H.finish W h.2⟩

section
variable (H : Inductive types fun net => net.WellFormed ∧ P net)
include H

theorem addRule (h : net.WellFormed ∧ P net) {rule : Nat} {condition : Condition}
    (hr : net.addRule types rule condition = .ok net') : net'.WellFormed ∧ P net' := by
  obtain ⟨branches, -, hr⟩ := ok_of_bind hr
  exact foldlM_ok (P := fun net => net.WellFormed ∧ P net)
    (fun net branch net' _ h hb => H.addBranch h.1 h hb) h hr

theorem place (h : net.WellFormed ∧ P net) (outline : Outline) :
    (net.place outline).2.WellFormed ∧ P (net.place outline).2 := by
  have hsupplied : ∀ supply? : Option Supply,
      (net.supplied supply?).2.WellFormed ∧ P (net.supplied supply?).2 := fun supply? => by
    cases supply? with
    | none => exact h
    | some supply => exact H.supplied supply h.1 h
  have hs := hsupplied outline.supply?
  unfold Network.place findable
  split
  · exact H.indexField _ _ hs.1 hs
  · exact hs

theorem compileBranches {parameters : List String} {branches : Branches}
    {plans : List (List PlanStep)} (h : net.WellFormed ∧ P net)
    (hp : Plan.compileBranches types parameters net branches = .ok (plans, net')) :
    net'.WellFormed ∧ P net' := by
  induction branches generalizing net plans with
  | nil =>
    cases hp
    exact h
  | cons branch rest ih =>
    obtain ⟨⟨steps, net₁⟩, hbranch, hp⟩ := ok_of_bind hp
    obtain ⟨⟨others, net₂⟩, hrest, hp⟩ := ok_of_bind hp
    cases hp
    obtain ⟨scope, -, hbranch⟩ := ok_of_bind hbranch
    obtain ⟨d, hd, hbranch⟩ := ok_of_bind hbranch
    cases hbranch
    refine ih (foldlM_ok (P := fun d : Drafting => d.net.WellFormed ∧ P d.net)
      (fun d e d' _ h hd => ?_) h hd) hrest
    rw [Drafting.addElement_eq] at hd
    cases houtline : e.outline types d.scope d.depth with
    | error defect => rw [houtline] at hd; cases hd
    | ok s =>
      rw [houtline] at hd
      cases hd
      exact H.place h s.1

theorem addQuery {a : Assembly} (ha : a.types = types) (h : a.network.WellFormed ∧ P a.network)
    (query : Query) : (a.addQuery query).network.WellFormed ∧ P (a.addQuery query).network := by
  unfold Assembly.addQuery
  split
  · exact h
  · split
    · next hp =>
      obtain ⟨branches, -, hp⟩ := ok_of_bind hp
      obtain ⟨⟨steps, net₁⟩, hp, heq⟩ := ok_of_bind hp
      cases heq
      exact H.compileBranches h (ha ▸ hp)
    · exact h

end

end Inductive

end Network

/-- What the steps of a build keep holds of the network of a rule base. -/
theorem Declarations.network_induction {declarations : Declarations} {base : RuleBase}
    (h : declarations.build = .ok base) {P : Network → Prop} (H : Network.Inductive base.types P) :
    P base.network := by
  obtain ⟨-, rfl⟩ := build_eq h
  have H := H.wellFormed
  have hall := (@assemble_ind declarations
    (fun a => a.network.WellFormed ∧ P a.network) H.empty ?_ ?_ ?_).2
  · exact (H.finish hall.1 hall).2
  · intro a type _ ha
    rw [a.network_addType]
    exact ha
  · intro a rule _ place htypes ha
    unfold Assembly.addRule
    dsimp only [Assembly.report]
    split
    · next hr => exact H.addRule ha (htypes ▸ hr)
    · exact ha
  · intro a query _ htypes ha
    exact H.addQuery htypes ha query

end RuleNet
