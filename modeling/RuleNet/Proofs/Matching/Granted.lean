/-
  Matches that reach a place, whatever predicates answer on the way.

  A predicate adds nothing to a match: it lets the match pass or it does not. Where it is granted, plain
  evaluation finds all matches that can reach a place, whoever asks the predicates before it.

  * `NodeKind.granted`: a node that passes a match whatever its predicate answers.
  * `evaluate_unique`: a match is known by its facts.
  * `Match.alike_of_carries`: matches of the same facts along the same nodes differ in results at most.
  * `Session.Steady.granted`: tokens hold matches that are found where predicates are granted.
-/
import Mathlib.Data.List.Induction
import RuleNet.Proofs.Matching.Signs
import RuleNet.Proofs.Network.Sharing
import RuleNet.Proofs.Session.Evaluation

namespace RuleNet

open Matching (Extension contribution)

variable {store : WorkingMemory} {members : AlphaId → IdSet} {R : Value → Value → Prop}

/-- The matches that some others go on to along a branch. -/
def evaluateFrom (store : WorkingMemory) (members : AlphaId → IdSet) (found : List Match)
    (branch : List NodeKind) : List Match :=
  branch.foldl (fun found kind =>
    found.flatMap fun μ => (kind.extensions store members μ).map fun e => μ ++ [e]) found

theorem evaluateFrom_nil (branch : List NodeKind) :
    evaluateFrom store members [[]] branch = evaluate store members branch := rfl

/-! ## A match is known by its facts -/

theorem Match.handles_append (μ ν : Match) : Match.handles (μ ++ ν) = μ.handles ++ ν.handles :=
  List.filterMap_append

/-- What a node adds to a match is what its tokens carry. -/
theorem NodeKind.carries_of_extension {kind : NodeKind} {μ : Match} {e : Extension}
    (h : e ∈ kind.extensions store members μ) : kind.Carries e := by
  cases kind with
  | join feed =>
    obtain ⟨i, -, rfl⟩ := List.mem_map.1 h
    exact ⟨i, rfl⟩
  | accumulate feed fold having =>
    obtain ⟨v, -, rfl⟩ := List.mem_map.1 h
    exact ⟨v, rfl⟩
  | absent feed | predicate p places =>
    rw [extensions, List.mem_ite_nil_right, List.mem_singleton] at h
    exact h.2
  | present feed =>
    rw [extensions, List.mem_ite_nil_left, List.mem_singleton] at h
    exact h.2

/-- A node adds nothing but facts in more than one way. -/
theorem NodeKind.extension_unique {kind : NodeKind} {μ : Match} {e e' : Extension}
    (h : e ∈ kind.extensions store members μ) (h' : e' ∈ kind.extensions store members μ)
    (hsame : e.handle = e'.handle) : e = e' := by
  have hcarries := carries_of_extension h
  have hcarries' := carries_of_extension h'
  cases kind with
  | join feed =>
    obtain ⟨i, rfl⟩ := hcarries
    obtain ⟨j, rfl⟩ := hcarries'
    cases hsame
    rfl
  | accumulate feed fold having =>
    obtain ⟨v, hv, rfl⟩ := List.mem_map.1 h
    obtain ⟨w, hw, rfl⟩ := List.mem_map.1 h'
    rw [Option.mem_toList] at hv hw
    rw [Option.some.inj (hv.symm.trans hw)]
  | absent feed | present feed | predicate p places => exact hcarries.trans hcarries'.symm

/-- Where matches go on alike, the facts of their steps tell whether they were alike before. -/
theorem NodeKind.Carries.handles_eq {kind : NodeKind} {μ ν : Match} {e e' : Extension}
    (h : kind.Carries e) (h' : kind.Carries e')
    (hsame : Match.handles (μ ++ [e]) = Match.handles (ν ++ [e'])) :
    μ.handles = ν.handles ∧ e.handle = e'.handle := by
  rw [Match.handles_append, Match.handles_append] at hsame
  cases kind with
  | join feed =>
    obtain ⟨i, rfl⟩ := h
    obtain ⟨j, rfl⟩ := h'
    obtain ⟨hμ, hlast⟩ := List.append_inj' hsame rfl
    cases hlast
    exact ⟨hμ, rfl⟩
  | accumulate feed fold having =>
    obtain ⟨v, rfl⟩ := h
    obtain ⟨w, rfl⟩ := h'
    exact ⟨List.append_cancel_right hsame, rfl⟩
  | absent feed | present feed | predicate p places =>
    obtain rfl : e = .nothing := h
    obtain rfl : e' = .nothing := h'
    exact ⟨List.append_cancel_right hsame, rfl⟩

/-- A match is known by its facts. -/
theorem evaluate_unique {branch : List NodeKind} {μ ν : Match}
    (hμ : μ ∈ evaluate store members branch) (hν : ν ∈ evaluate store members branch)
    (hsame : μ.handles = ν.handles) : μ = ν := by
  induction branch using List.reverseRecOn generalizing μ ν with
  | nil => rw [List.mem_singleton.1 hμ, List.mem_singleton.1 hν]
  | append_singleton branch kind ih =>
    obtain ⟨μ', hμ', e, he, rfl⟩ := mem_evaluate_concat.1 hμ
    obtain ⟨ν', hν', e', he', rfl⟩ := mem_evaluate_concat.1 hν
    obtain ⟨hbefore, hlast⟩ := (NodeKind.carries_of_extension he).handles_eq
      (NodeKind.carries_of_extension he') hsame
    obtain rfl := ih hμ' hν' hbefore
    rw [NodeKind.extension_unique he he' hlast]

/-! ## Results left out of account -/

/-- Matches of the same facts along the same nodes differ in results at most. -/
theorem Match.alike_of_carries {kinds : List NodeKind} {μ ν : Match}
    (hμ : List.Forall₂ NodeKind.Carries kinds μ) (hν : List.Forall₂ NodeKind.Carries kinds ν)
    (hsame : μ.handles = ν.handles) : μ.Alike (fun _ _ => True) ν := by
  induction hμ generalizing ν with
  | nil =>
    cases hν
    exact .nil
  | @cons kind e kinds μ he _ ih =>
    cases hν with
    | @cons _ e' _ ν he' hν =>
    cases kind with
    | join feed =>
      obtain ⟨i, rfl⟩ := he
      obtain ⟨j, rfl⟩ := he'
      obtain ⟨rfl, hrest⟩ := List.cons.inj hsame
      exact .cons ⟨rfl, .none⟩ (ih hν hrest)
    | accumulate feed fold having =>
      obtain ⟨v, rfl⟩ := he
      obtain ⟨w, rfl⟩ := he'
      exact .cons ⟨rfl, .some trivial⟩ (ih hν hsame)
    | absent feed | present feed | predicate p places =>
      obtain rfl : e = .nothing := he
      obtain rfl : e' = .nothing := he'
      exact .cons ⟨rfl, .none⟩ (ih hν hsame)

/-- A match carries what the nodes of its branch add. -/
theorem Matching.Forest.carries_matchOf {net : Network} {m : Matching} (F : m.Forest net)
    (W : net.WellFormed) (hcarries : ∀ {n left t e kind}, m.Made n left t e →
      net.kind? n = some kind → kind.Carries e) {t : TokenId} {o : Origin}
    (h : m.origin? t = some o) : List.Forall₂ NodeKind.Carries (net.trail o.node) (m.matchOf t) := by
  refine F.induction (P := fun t o => List.Forall₂ NodeKind.Carries (net.trail o.node)
    (m.matchOf t)) ?_ ?_ t o h
  · rw [Matching.matchOf_root F]
    exact .nil
  · intro t p n node o above ho hp hn hnode hlt habove hparent _ ih
    have htrail : net.trail o.node = net.trail above.node ++ [node.kind] := by
      rw [hn, hparent]
      exact W.branchTo_eq hnode
    rw [htrail, Matching.matchOf_made ho hp hlt habove]
    exact List.rel_append ih
      (.cons (hcarries (Matching.made_of_origin ho hn hp) (Network.kind?_eq hnode)) .nil)

/-! ## Predicates left out of account -/

/-- A node that passes a match whatever its predicate answers. -/
def NodeKind.granted : NodeKind → NodeKind
  | .predicate p places => .predicate { p with holds := fun _ => true } places
  | kind => kind

theorem NodeKind.mem_granted {kind : NodeKind} {μ : Match} {e : Extension}
    (h : e ∈ kind.extensions store members μ) : e ∈ kind.granted.extensions store members μ := by
  cases kind with
  | predicate p places =>
    rw [extensions, List.mem_ite_nil_right] at h
    exact h.2
  | join feed | absent feed | present feed | accumulate feed fold having => exact h

/-- Where predicates are granted, nothing sees the signs of zeros. -/
theorem NodeKind.blind_granted (kind : NodeKind) (store : WorkingMemory) :
    kind.granted.Blind Value.SameUnsigned store :=
  blind_unsigned store fun p places h => by
    cases kind with
    | predicate q places' =>
      cases h
      exact fun _ _ _ => rfl
    | _ => cases h

/-- What a node has made it makes where predicates are granted, or a result that may stand for it. -/
theorem NodeKind.Extends.granted {kind : NodeKind} {μ : Match} {agree : Option Value →
    Option Value → Prop} {es : List Extension}
    (h : kind.Extends agree (kind.extensions store members μ) es) (hrefl : ∀ v, R v v)
    (hagree : ∀ {a b}, agree a b → Option.Rel R a b) {e : Extension} (he : e ∈ es) :
    ∃ e' ∈ kind.granted.extensions store members μ, e.Alike R e' := by
  rcases h with rfl | ⟨feed, fold, having, result, result', rfl, hresult, rfl, hexact⟩
  · exact ⟨e, mem_granted he, .refl hrefl e⟩
  · obtain ⟨v, hv, rfl⟩ := List.mem_map.1 he
    rw [Option.mem_toList] at hv
    subst hv
    cases hagree hresult with
    | @some _ w hR =>
      refine ⟨.result w, ?_, rfl, .some hR⟩
      show Extension.result w ∈ (NodeKind.accumulate feed fold having).extensions store members μ
      rw [hexact]
      exact List.mem_singleton_self _

namespace Session

variable {s : Session}

/-- What a node has made for a left token. -/
theorem Steady.made (h : s.Steady)
    (hfolds : s.network.Folds fun type fold => fold.OfIntegers s.base.types type) {n : NodeId}
    {node : BetaNode} {left : TokenId} (hn : s.network.node? n = some node)
    (hl : s.matching.LiveAt left node.parent) :
    ∃ es, (∀ e, (∃ t, s.matching.Made n left t e) ↔ e ∈ es) ∧
      node.kind.Extends s.settings.updatePolicy.agree
        (node.kind.extensions s.store s.matching.members (s.matching.matchOf left)) es := by
  have hk := Network.kind?_eq hn
  have hunmarked : s.matching.isMarked n left = false := by
    rw [Matching.isMarked, h.direct]
    rfl
  exact (h.kept.sound.settled hn hl fun hb => hb).made_extends (fun _ hlate => hlate)
    (fun hstale => hstale) hunmarked (h.sumsIntegers hfolds hk)
    fun hmade => h.kept.sound.carries hmade hk

/-- A predicate has passed the match of a left token exactly if it holds for its binding. -/
theorem Steady.made_predicate (h : s.Steady) (W : s.network.WellFormed) {n : NodeId}
    {p : Predicate} {places : List (String × Place)} {left : TokenId}
    (hk : s.network.kind? n = some (.predicate p places)) (hl : s.matching.LeftOf s.network n left) :
    (∃ t, s.matching.Made n left t .nothing) ↔
      p.holds (s.matching.binding s.store places left) = true := by
  obtain ⟨node, hn, o, ho, hparent⟩ := hl
  have hkind : node.kind = .predicate p places := Option.some.inj ((Network.kind?_eq hn).symm.trans hk)
  have hs := h.kept.sound.settled hn ⟨o, ho, hparent⟩ fun hb => hb
  rw [hkind] at hs
  obtain ⟨output, -, hp⟩ := hs
  rw [hp.mem, Matching.binding_eq W h.kept.sound.forest ho]
  cases p.holds ((s.matching.matchOf left).binding s.store places) <;> simp

/-- Tokens hold matches that evaluation finds where predicates are granted. -/
theorem Steady.granted (h : s.Steady) (W : s.network.WellFormed)
    (hfolds : s.network.Folds fun type fold => fold.OfIntegers s.base.types type)
    (hrefl : ∀ v, R v v) (hagree : ∀ {a b}, s.settings.updatePolicy.agree a b → Option.Rel R a b)
    (hblind : ∀ kind : NodeKind, kind.granted.Blind R s.store) {t : TokenId} {o : Origin}
    (ho : s.matching.origin? t = some o) :
    ∃ μ ∈ evaluate s.store s.matching.members ((s.network.trail o.node).map NodeKind.granted),
      (s.matching.matchOf t).Alike R μ := by
  have F := h.kept.sound.forest
  refine F.induction (P := fun t o => ∃ μ ∈ evaluate s.store s.matching.members
    ((s.network.trail o.node).map NodeKind.granted), (s.matching.matchOf t).Alike R μ) ?_ ?_ t o ho
  · rw [Matching.matchOf_root F]
    exact ⟨[], List.mem_singleton_self _, .nil⟩
  · intro t p n node o above ho hp hn hnode hlt habove hparent _ ⟨μ, hμ, halike⟩
    have htrail : s.network.trail o.node = s.network.trail above.node ++ [node.kind] := by
      rw [hn, hparent]
      exact W.branchTo_eq hnode
    obtain ⟨es, hes, hext⟩ := h.made hfolds hnode ⟨above, habove, hparent⟩
    obtain ⟨e, he, hstep⟩ := hext.granted hrefl hagree
      ((hes o.step).1 ⟨t, Matching.made_of_origin ho hn hp⟩)
    rw [(hblind node.kind).extensions_eq s.matching.members halike] at he
    rw [htrail, List.map_append, Matching.matchOf_made ho hp hlt habove]
    exact ⟨μ ++ [e], mem_evaluate_concat.2 ⟨μ, hμ, e, he, rfl⟩, halike.concat hstep⟩

end Session

end RuleNet
