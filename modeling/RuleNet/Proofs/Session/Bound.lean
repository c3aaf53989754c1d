/-
  What the tokens of a chain bind.

  The tokens of a chain carry what the elements of their branch are met by, one after the other. A pattern
  is met by a live fact, which it binds with its fields; a fold has a result, which it binds; and nothing
  is bound by the other elements.

  * `Element.Binds`, `Binds`: what an element, and a whole branch, binds of what it is met by.
  * `Binds.length_handles`: there is one fact for each pattern.
  * `Session.Steady.bears`: what the tokens of a chain carry.
  * `Network.Draws.binds`: the binding of a match is what the branch binds of it.
-/
import RuleNet.Proofs.Query.Twins
import RuleNet.Proofs.Query.Variables
import RuleNet.Proofs.Session.References

namespace RuleNet

open Matching (Extension)

/-! ## Elements -/

/-- An element of a branch is met by what a token carries, and binds of it what it names. -/
inductive Element.Binds (store : WorkingMemory) : Element → Extension → Binding → Binding → Prop
  | pattern (p : Pattern) (b : Binding) {h : Handle} {entry : Entry} (he : store.entry? h = some entry)
    (ht : entry.fact.type = p.type) : Binds store (.pattern p) (.fact h) b
      { facts := match p.factVar with
          | some name => b.facts.insert name h
          | none => b.facts
        values := p.fieldVars.foldl
          (fun (values : Entries Value) var => values.insert var.1 (entry.fact.value var.2)) b.values
        handles := b.handles ++ [h] }
  | accumulate (a : Accumulate) (b : Binding) (v : Value) :
    Binds store (.accumulate a) (.result v) b { b with values := b.values.insert a.result v }
  | pass {e : Element} (b : Binding) (hp : ∀ p, e ≠ .pattern p) (ha : ∀ a, e ≠ .accumulate a) :
    Binds store e .nothing b b

/-- The elements of a branch are met one after the other, and bind what they name. -/
inductive Binds (store : WorkingMemory) : List Element → Match → Binding → Binding → Prop
  | nil (b : Binding) : Binds store [] [] b b
  | cons {e : Element} {x : Extension} {rest : List Element} {μ : Match} {b b₁ b₂ : Binding}
    (h : e.Binds store x b b₁) (hrest : Binds store rest μ b₁ b₂) :
    Binds store (e :: rest) (x :: μ) b b₂

def Element.isPattern : Element → Bool
  | .pattern _ => true
  | _ => false

variable {types : Types} {scope scope' : Scope} {store : WorkingMemory} {net : Network} {μ : Match}

/-- There is one fact for each pattern. -/
theorem Binds.length_handles {branch : List Element} {b b' : Binding} (h : Binds store branch μ b b') :
    b'.handles.length = b.handles.length + branch.countP Element.isPattern := by
  induction h with
  | nil => rfl
  | @cons e _ rest _ _ _ _ h _ ih =>
    rw [ih, List.countP_cons]
    cases h with
    | pattern p b he ht =>
      rw [List.length_append, List.length_singleton]
      show _ + 1 + _ = _ + (_ + 1)
      omega
    | accumulate a b v => rfl
    | pass b hp ha =>
      cases e
      case pattern p => exact absurd rfl (hp p)
      all_goals rfl

/-- What is bound depends on the facts of the match only. -/
theorem Binds.congr {store' : WorkingMemory} {branch : List Element} {b b' : Binding}
    (h : Binds store branch μ b b') (hsame : ∀ i ∈ μ.handles, store'.entry? i = store.entry? i) :
    Binds store' branch μ b b' := by
  induction h with
  | nil b => exact .nil b
  | @cons e x rest μ _ _ _ h _ ih =>
    have hrest : ∀ i ∈ Match.handles μ, store'.entry? i = store.entry? i := fun i hi =>
      hsame i (List.mem_filterMap.2 ((List.mem_filterMap.1 hi).imp fun _ h =>
        ⟨List.mem_cons_of_mem x h.1, h.2⟩))
    cases h with
    | pattern p b he ht =>
      have hlive := (hsame _ (List.mem_filterMap.2 ⟨_, List.mem_cons_self, rfl⟩)).trans he
      exact .cons (.pattern p _ hlive ht) (ih hrest)
    | accumulate a b v => exact .cons (.accumulate a _ v) (ih hrest)
    | pass b hp ha => exact .cons (.pass _ hp ha) (ih hrest)

theorem Pattern.type_supply {p : Pattern} {type : FactType} {supply : Supply} {tests : List (Test Place)}
    (h : p.supply types scope type = .ok (supply, tests)) : supply.type = type.name := by
  obtain ⟨all, -, h⟩ := ok_of_bind h
  cases h
  rfl

/-- What the step of an element asks for, and which variables it binds. -/
theorem Element.sketch_cases {e : Element} {depth : Nat} {sketch : Sketch}
    (h : e.sketch types scope depth = .ok (sketch, scope')) :
    (∃ p type supply tests, e = .pattern p ∧ sketch = .join supply tests ∧
      types.find? p.type = some type ∧ supply.type = type.name ∧
      scope.declarePattern p (depth + 1) = .ok scope') ∨
    (∃ a supply tests having, e = .accumulate a ∧ sketch = .accumulate supply tests a.fold having ∧
      scope.declare a.result (.result (depth + 1)) = .ok scope') ∨
    ((∀ p, e ≠ .pattern p) ∧ (∀ a, e ≠ .accumulate a) ∧ scope' = scope ∧
      ∀ a x, (sketch.kind a).Carries x → x = .nothing) := by
  cases e.sketched h with
  | pattern htype hsupply hscope =>
    exact .inl ⟨_, _, _, _, rfl, rfl, find?_of_checkPattern htype, Pattern.type_supply hsupply,
      hscope⟩
  | accumulate _ _ _ _ _ hscope => exact .inr (.inl ⟨_, _, _, _, rfl, rfl, hscope⟩)
  | absent | present | every | predicate =>
    exact .inr (.inr ⟨(by rintro _ ⟨⟩), (by rintro _ ⟨⟩), rfl, fun _ _ hx => hx⟩)

/-! ## What tokens carry -/

/-- What a token of a node of some kind carries; a fact is a live one that the node's memory takes. -/
def NodeKind.Bears (net : Network) (store : WorkingMemory) (kind : NodeKind) (x : Extension) : Prop :=
  kind.Carries x ∧ ∀ feed h, kind = .join feed → x = .fact h → ∃ entry alpha,
    store.entry? h = some entry ∧ net.alpha? feed.alpha = some alpha ∧ entry.fact.type = alpha.type

theorem NodeKind.carries_of_same {kind kind' : NodeKind} (h : kind.same kind' = true) {x : Extension}
    (hx : kind'.Carries x) : kind.Carries x := by
  cases kind <;> cases kind' <;> first | exact hx | cases h

/-- An element binds what it names of what the token of its node carries. -/
theorem Element.binds_of_sketch (N : types.Named) (R : scope.Regular μ.length) {e : Element}
    {sketch : Sketch} (h : e.sketch types scope μ.length = .ok (sketch, scope')) {kind : NodeKind}
    (hf : net.Fits sketch kind) {x : Extension} (hx : kind.Bears net store x) :
    scope'.Regular (μ.length + 1) ∧ e.Binds store x (μ.binding store scope.places)
      (Match.binding store scope'.places (μ ++ [x])) := by
  obtain ⟨a, hsame, hsupplies⟩ := hf
  obtain ⟨hcarries, hfact⟩ := hx
  have hhandles : Match.handles (μ ++ [x]) = μ.handles ++ x.handle.toList := by
    rw [Match.handles, List.filterMap_append, List.filterMap_cons, List.filterMap_nil, Match.handles]
    cases x.handle <;> rfl
  have hbinding : ∀ {facts values}, Match.row store scope' (μ ++ [x]) = ⟨facts, values⟩ →
      Match.binding store scope'.places (μ ++ [x]) = ⟨facts, values, μ.handles ++ x.handle.toList⟩ :=
    fun hrow => by
      rw [← hhandles]
      exact congrArg (fun row : Row => Binding.mk row.facts row.values _) hrow
  rcases e.sketch_cases h with ⟨p, type, supply, tests, rfl, rfl, htype, hname, hscope⟩ |
    ⟨acc, supply, tests, having, rfl, rfl, hscope⟩ | ⟨hp, ha, rfl, hnothing⟩
  · obtain rfl := NodeKind.eq_of_same hsame (NodeKind.feed?_of_same hsame)
    obtain ⟨i, rfl⟩ := hcarries
    obtain ⟨entry, alpha, hentry, halpha, hmember⟩ := hfact _ i rfl rfl
    obtain ⟨alpha', halpha', hsupply, -⟩ := hsupplies supply rfl
    cases halpha.symm.trans halpha'
    have hkind : entry.fact.type = p.type := by
      rw [hmember, hsupply, hname]
      exact N _ _ htype
    have hlive : store.fact? i = some entry.fact := by
      rw [WorkingMemory.fact?, hentry]
      rfl
    refine ⟨R.declarePattern hscope, ?_⟩
    rw [hbinding (Match.row_declarePattern R hscope hlive)]
    exact .pattern p _ hentry hkind
  · obtain rfl := NodeKind.eq_of_same hsame (NodeKind.feed?_of_same hsame)
    obtain ⟨v, rfl⟩ := hcarries
    refine ⟨(R.mono (Nat.le_succ _)).declare (Nat.le_refl _) hscope, ?_⟩
    rw [hbinding (Match.row_declare_result R hscope v)]
    show Element.Binds _ _ _ _ ⟨_, _, μ.handles ++ []⟩
    rw [List.append_nil]
    exact .accumulate acc _ v
  · obtain rfl := hnothing a x (NodeKind.carries_of_same hsame hcarries)
    refine ⟨R.mono (Nat.le_succ _), ?_⟩
    rw [hbinding (Match.row_concat R _)]
    show Element.Binds _ _ _ _ ⟨_, _, μ.handles ++ []⟩
    rw [List.append_nil]
    exact .pass _ hp ha

/-- A branch binds what it names of what the tokens of a chain carry. -/
theorem binds_of_sketches (N : types.Named) (R : scope.Regular μ.length) {branch : List Element}
    {steps : List Sketch} (h : sketches types scope μ.length branch = .ok (steps, scope'))
    {kinds : List NodeKind} (hfits : List.Forall₂ net.Fits steps kinds) {ν : Match}
    (hν : List.Forall₂ (NodeKind.Bears net store) kinds ν) :
    Binds store branch ν (μ.binding store scope.places)
      (Match.binding store scope'.places (μ ++ ν)) := by
  induction branch generalizing scope μ steps kinds ν with
  | nil =>
    cases h
    cases hfits
    cases hν
    rw [List.append_nil]
    exact .nil _
  | cons e rest ih =>
    obtain ⟨⟨sketch, scope₁⟩, hfirst, h⟩ := ok_of_bind h
    obtain ⟨⟨others, scope₂⟩, hothers, h⟩ := ok_of_bind h
    cases h
    cases hfits with
    | cons hfit hfits =>
    cases hν with
    | @cons _ x _ ν hx hν =>
    obtain ⟨R', hbinds⟩ := e.binds_of_sketch N R hfirst hfit hx
    have hlength : (μ ++ [x]).length = μ.length + 1 := List.length_append
    have hrest := ih (hlength.symm ▸ R') (hlength.symm ▸ hothers) hfits hν
    rw [List.append_assoc, List.singleton_append] at hrest
    exact .cons hbinds hrest

/-- The binding of a match is what the branch binds of what it is met by. -/
theorem Network.Draws.binds (N : types.Named) {branch : List Element} {terminal : Terminal}
    (hd : net.Draws types branch terminal)
    (hμ : List.Forall₂ (NodeKind.Bears net store) (net.branchOf terminal) μ) :
    Binds store branch μ .empty (μ.binding store terminal.scope) := by
  obtain ⟨steps, scope, hsteps, hscope, hfits⟩ := hd.drawn
  rw [hscope]
  exact binds_of_sketches (μ := []) N (Scope.regular_nil 0) hsteps hfits hμ

namespace Session

variable {s : Session}

/-- The tokens of a chain carry what their nodes pass on. -/
theorem Steady.bears (hs : s.Steady) (W : s.network.WellFormed) {t : TokenId} {last : Option NodeId}
    (ht : s.matching.LiveAt t last) :
    List.Forall₂ (NodeKind.Bears s.network s.store) (s.network.trail last) (s.matching.matchOf t) := by
  have S := hs.kept.sound
  have F := S.forest
  obtain ⟨o, ho, rfl⟩ := ht
  refine F.induction (P := fun t o => List.Forall₂ (NodeKind.Bears s.network s.store)
    (s.network.trail o.node) (s.matching.matchOf t)) ?_ ?_ t o ho
  · rw [Matching.matchOf_root F]
    exact .nil
  · intro t p n node o above ho hp hn hnode hlt habove heq hdepth ih
    have hmade := Matching.made_of_origin ho hn hp
    have htrail : s.network.trail o.node = s.network.trail above.node ++ [node.kind] := by
      rw [hn, heq]
      show s.network.branchTo n = _
      cases hparent : node.parent with
      | none => exact Network.branchTo_top hnode hparent
      | some q => exact Network.branchTo_below hnode hparent (W.parent hnode hparent).1
    rw [htrail, Matching.matchOf_made ho hp hlt habove]
    refine List.rel_append ih (.cons ⟨S.carries hmade (Network.kind?_eq hnode), ?_⟩ .nil)
    intro feed h hkind hstep
    obtain ⟨alpha, entry, halpha, hentry, htype⟩ := hs.kept.stocked.typed
      (hs.member_of_made hnode hkind ⟨above, habove, heq⟩ (hstep ▸ hmade))
    exact ⟨entry, alpha, hentry, halpha, htype⟩

end Session

end RuleNet
