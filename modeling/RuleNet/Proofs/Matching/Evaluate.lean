/-
  Plain evaluation: the matches of a branch found with nested loops over the alpha memories.

  * `NodeKind.extensions`: what a node of a kind adds to a match.
  * `evaluate`: the matches of a branch, node by node from the left.
  * `Ledger.Settled.made_extends`: what a settled node has made is what it adds to its left token's match,
    up to a result that may stand where another one is due.
  * `Evaluated.holds`: the tokens of a node hold the matches that evaluation finds. Where results may
    differ, so may the matches, as long as nothing that the network tests tells them apart.
-/
import Mathlib.Data.List.Forall2
import RuleNet.Proofs.Matching.Rest

namespace RuleNet

open Matching (Extension contribution)

/-! ## Evaluation -/

namespace Match

/-- The members of a feed's memory that go with a match, in order. -/
def partners (store : WorkingMemory) (members : AlphaId → IdSet) (feed : Feed) (μ : Match) :
    List Handle :=
  (members feed.alpha).toList.filter (μ.accepts store feed)

/-- Whether a result meets the condition on it. -/
def admits (store : WorkingMemory) (having : Option (Operator × TestOperand Place)) (μ : Match)
    (value : Value) : Bool := match having with
  | some (operator, operand) => operator.apply value (operand.resolve (μ.view store))
  | none => true

/-- The fold of the facts that go with a match, if it is defined and meets the condition on it. -/
def folded? (store : WorkingMemory) (members : AlphaId → IdSet) (feed : Feed) (fold : Fold)
    (having : Option (Operator × TestOperand Place)) (μ : Match) : Option Value :=
  (fold.over ((μ.partners store members feed).map (contribution store fold))).filter
    (μ.admits store having)

end Match

/-- What a node of a kind adds to a match, each time it passes it on. -/
def NodeKind.extensions (store : WorkingMemory) (members : AlphaId → IdSet) (μ : Match) :
    NodeKind → List Extension
  | .join feed => (μ.partners store members feed).map .fact
  | .absent feed => if (μ.partners store members feed).isEmpty then [.nothing] else []
  | .present feed => if (μ.partners store members feed).isEmpty then [] else [.nothing]
  | .accumulate feed fold having =>
    (μ.folded? store members feed fold having).toList.map .result
  | .predicate p scope => if p.holds (μ.binding store scope) then [.nothing] else []

/-- The matches of a branch. -/
def evaluate (store : WorkingMemory) (members : AlphaId → IdSet) (branch : List NodeKind) :
    List Match :=
  branch.foldl (fun found kind =>
    found.flatMap fun μ => (kind.extensions store members μ).map fun e => μ ++ [e]) [[]]

theorem mem_evaluate_concat {store : WorkingMemory} {members : AlphaId → IdSet}
    {branch : List NodeKind} {kind : NodeKind} {ν : Match} :
    ν ∈ evaluate store members (branch ++ [kind]) ↔
      ∃ μ ∈ evaluate store members branch, ∃ e ∈ kind.extensions store members μ, ν = μ ++ [e] := by
  rw [evaluate, List.foldl_append, ← evaluate, List.foldl_cons, List.foldl_nil]
  constructor
  · intro h
    obtain ⟨μ, hμ, hν⟩ := List.mem_flatMap.1 h
    obtain ⟨e, he, rfl⟩ := List.mem_map.1 hν
    exact ⟨μ, hμ, e, he, rfl⟩
  · rintro ⟨μ, hμ, e, he, rfl⟩
    exact List.mem_flatMap.2 ⟨μ, hμ, List.mem_map.2 ⟨e, he, rfl⟩⟩

theorem Match.mem_partners {store : WorkingMemory} {members : AlphaId → IdSet} {feed : Feed}
    {μ : Match} {h : Handle} : h ∈ μ.partners store members feed ↔
      h ∈ members feed.alpha ∧ μ.accepts store feed h = true := by
  rw [partners, List.mem_filter, Std.ExtTreeSet.mem_toList]

/-! ## Nodes -/

/-- No double is added to a sum. -/
def NodeKind.SumsIntegers (kind : NodeKind) (store : WorkingMemory) (members : AlphaId → IdSet) :
    Prop := match kind with
  | .accumulate feed fold _ => fold.needsNumbers = true →
    ∀ h ∈ members feed.alpha, (contribution store fold h).isDouble = false
  | _ => True

/-- The values that an accumulator holds are those of the facts that contribute, in order. -/
theorem Accumulator.Folds.values {acc : Accumulator} {store : WorkingMemory} {fold : Fold}
    (h : acc.Folds store fold) {facts : List Handle} (hfacts : facts.Pairwise (· < ·))
    (hmem : ∀ i, acc.contains i = true ↔ i ∈ facts) :
    acc.contributions.values = facts.map (contribution store fold) := by
  have hlist : acc.contributions.toList = facts.map fun i => (i, contribution store fold i) := by
    refine eq_of_ascending (r := fun a b : Nat × Value => a.1 < b.1)
      (fun a b hab hba => Nat.lt_asymm hab hba) ?_ ?_ fun e => ?_
    · have := acc.contributions.ordered_keys_toList
      exact this.imp fun hlt => Nat.compare_eq_lt.1 hlt
    · exact List.pairwise_map.2 hfacts
    · rw [mem_toList, List.mem_map]
      constructor
      · intro he
        exact ⟨e.1, (hmem e.1).1 (contains_iff.2 ⟨e.2, he⟩),
          Prod.ext rfl (h.contributions he).symm⟩
      · rintro ⟨i, hi, rfl⟩
        obtain ⟨v, hv⟩ := contains_iff.1 ((hmem i).2 hi)
        exact hv.trans (congrArg some (h.contributions hv))
  rw [values_eq_map_toList, hlist, List.map_map]
  rfl

theorem IdSet.pairwise_toList (ids : IdSet) : ids.toList.Pairwise (· < ·) :=
  ids.ordered_toList.imp fun hlt => Nat.compare_eq_lt.1 hlt

theorem Match.pairwise_partners {store : WorkingMemory} {members : AlphaId → IdSet} {feed : Feed}
    {μ : Match} : (μ.partners store members feed).Pairwise (· < ·) :=
  (IdSet.pairwise_toList _).filter _

/-- The same facts go with a match in the same order. -/
theorem Match.partners_eq {store : WorkingMemory} {members members' : AlphaId → IdSet} {feed : Feed}
    {μ : Match}
    (h : ∀ i, i ∈ μ.partners store members feed ↔ i ∈ μ.partners store members' feed) :
    μ.partners store members feed = μ.partners store members' feed :=
  eq_of_ascending (fun _ _ hab hba => Nat.lt_asymm hab hba) pairwise_partners pairwise_partners h

/-- An accumulator of the facts that go with a match holds their fold. -/
theorem Accumulator.Folds.gated?_eq {acc : Accumulator} {store : WorkingMemory}
    {members : AlphaId → IdSet} {feed : Feed} {fold : Fold}
    {having : Option (Operator × TestOperand Place)} {μ : Match} (h : acc.Folds store fold)
    (hmem : ∀ i, acc.contains i = true ↔ i ∈ μ.partners store members feed)
    (hsums : (NodeKind.accumulate feed fold having).SumsIntegers store members) :
    μ.gated? store having acc = μ.folded? store members feed fold having := by
  have hvalues := h.values Match.pairwise_partners hmem
  rw [Match.gated?, h.regular.result?_eq, hvalues, h.same_fold]
  · rfl
  · rw [h.same_fold, hvalues]
    intro hneeds v hv
    obtain ⟨i, hi, rfl⟩ := List.mem_map.1 hv
    exact hsums hneeds i (Match.mem_partners.1 hi).1

/-- A node that is settled has made what it adds to the match of its left token. -/
def NodeKind.Extends (kind : NodeKind) (agree : Option Value → Option Value → Prop)
    (exact made : List Extension) : Prop :=
  made = exact ∨ ∃ feed fold having result result', kind = .accumulate feed fold having ∧
    agree result result' ∧ made = result.toList.map .result ∧ exact = result'.toList.map .result

/-- What has been passed on for a left token. -/
theorem Passes.mem {made : TokenId → Extension → Prop} {output : Option TokenId}
    {ext : Option Extension} (h : Passes made output ext) (e : Extension) :
    (∃ t, made t e) ↔ e ∈ ext.toList := by
  cases ext with
  | none => exact iff_of_false (fun ⟨t, ht⟩ => h.2 t e ht) List.not_mem_nil
  | some ext =>
    obtain ⟨t, -, ht⟩ := h
    rw [Option.toList_some, List.mem_singleton]
    exact ⟨fun ⟨t', ht'⟩ => ((ht t' e).1 ht').2, fun he => ⟨t, (ht t e).2 ⟨rfl, he⟩⟩⟩

namespace Ledger

variable {x : Ledger} {store : WorkingMemory} {members : AlphaId → IdSet} {n : NodeId}
  {left : TokenId} {μ : Match} {r : LeftRecord} {made : TokenId → Extension → Prop}
  {kind : NodeKind}

/-- Once nothing is late, a node knows the facts of its memory that go with a match. -/
theorem Covers.mem_partners {feed : Feed} {facts : Handle → Prop} (hlate : ∀ i, ¬ x.late n i)
    (hc : x.Covers n store (members feed.alpha) μ feed facts) (i : Handle) :
    facts i ↔ i ∈ μ.partners store members feed := by
  rw [Match.mem_partners]
  constructor
  · exact fun hi => ((hc i).1 hi).resolve_right fun hl => hlate i hl.1
  · exact fun hi => ((hc i).2 hi.1 hi.2).resolve_right (hlate i)

theorem Covers.isEmpty_partners {feed : Feed} {facts : IdSet} (hlate : ∀ i, ¬ x.late n i)
    (hc : x.Covers n store (members feed.alpha) μ feed (· ∈ facts)) :
    facts.isEmpty = (μ.partners store members feed).isEmpty := by
  rw [Bool.eq_iff_iff, List.isEmpty_iff, List.eq_nil_iff_forall_not_mem, IdSet.isEmpty_iff_forall]
  exact forall_congr' fun i => not_congr (hc.mem_partners hlate i)

/-- A settled node has made what it adds to the match of its left token, up to results that may
    stand where others are due. -/
theorem Settled.made_extends (hs : x.Settled store members n left μ r made kind)
    (hlate : ∀ i, ¬ x.late n i) (hstale : ¬ x.stale n left) (hmarked : r.marked = false)
    (hsums : kind.SumsIntegers store members) (hcarries : ∀ {t e}, made t e → kind.Carries e) :
    ∃ es, (∀ e, (∃ t, made t e) ↔ e ∈ es) ∧
      kind.Extends x.agree (kind.extensions store members μ) es := by
  cases kind with
  | join feed =>
    obtain ⟨hr, hc, -⟩ := hs
    refine ⟨_, fun e => ?_, Or.inl rfl⟩
    rw [NodeKind.extensions, List.mem_map]
    constructor
    · rintro ⟨t, ht⟩
      obtain ⟨i, rfl⟩ := hcarries ht
      exact ⟨i, (hc.mem_partners hlate i).1 ⟨t, ht⟩, rfl⟩
    · rintro ⟨i, hi, rfl⟩
      exact (hc.mem_partners hlate i).2 hi
  | absent feed =>
    obtain ⟨facts, output, -, hc, hp⟩ := hs
    refine ⟨_, hp.mem, Or.inl ?_⟩
    rw [NodeKind.extensions, hc.isEmpty_partners hlate]
    split <;> rfl
  | present feed =>
    obtain ⟨facts, output, -, hc, hp⟩ := hs
    refine ⟨_, hp.mem, Or.inl ?_⟩
    rw [NodeKind.extensions, hc.isEmpty_partners hlate]
    split <;> rfl
  | accumulate feed fold having =>
    obtain ⟨acc, output, marked, result, rfl, hc, hf, hp, hagree⟩ := hs
    have hresult := @hf.gated?_eq _ _ _ _ _ having _ (hc.mem_partners hlate) hsums
    refine ⟨_, hp.mem, Or.inr ⟨feed, fold, having, result, _, rfl,
      (hagree.resolve_left fun hm => ?_).resolve_left hstale, ?_, ?_⟩⟩
    · exact Bool.false_ne_true (hmarked.symm.trans hm)
    · cases result <;> rfl
    · rw [NodeKind.extensions, hresult]
  | predicate p scope =>
    obtain ⟨output, -, hp⟩ := hs
    refine ⟨_, hp.mem, Or.inl ?_⟩
    rw [NodeKind.extensions]
    split <;> rfl

end Ledger

/-! ## Results that nothing tells apart -/

section
variable (R : Value → Value → Prop)

/-- Two steps carry the same fact and results that are alike. -/
def Matching.Extension.Alike (e e' : Extension) : Prop :=
  e.handle = e'.handle ∧ Option.Rel R e.value e'.value

/-- Two matches carry the same facts and results that are alike. -/
def Match.Alike (μ ν : Match) : Prop := List.Forall₂ (Extension.Alike R) μ ν

/-- A node does the same for matches that are alike. -/
structure NodeKind.Blind (kind : NodeKind) (store : WorkingMemory) : Prop where
  accepts : ∀ feed, kind.feed? = some feed → ∀ {μ ν : Match}, μ.Alike R ν →
    ∀ h, μ.accepts store feed h = ν.accepts store feed h
  admits : ∀ feed fold having, kind = .accumulate feed fold having → ∀ {μ ν : Match}, μ.Alike R ν →
    ∀ v, μ.admits store having v = ν.admits store having v
  holds : ∀ p scope, kind = .predicate p scope → ∀ {μ ν : Match}, μ.Alike R ν →
    p.holds (μ.binding store scope) = p.holds (ν.binding store scope)

end

variable {R : Value → Value → Prop} {net : Network} {store : WorkingMemory} {x : Ledger}
  {m : Matching}

theorem Matching.Extension.Alike.refl (hrefl : ∀ v, R v v) (e : Extension) : e.Alike R e := by
  refine ⟨rfl, ?_⟩
  cases e.value with
  | none => exact .none
  | some v => exact .some (hrefl v)

theorem Match.Alike.concat {μ ν : Match} {e e' : Extension} (h : μ.Alike R ν) (he : e.Alike R e') :
    Match.Alike R (μ ++ [e]) (ν ++ [e']) :=
  List.rel_append h (.cons he .nil)

/-- What a blind node adds to matches that are alike is the same. -/
theorem NodeKind.Blind.extensions_eq {kind : NodeKind} (h : kind.Blind R store)
    (members : AlphaId → IdSet) {μ ν : Match} (hμ : μ.Alike R ν) :
    kind.extensions store members μ = kind.extensions store members ν := by
  have hpartners : ∀ feed, kind.feed? = some feed →
      μ.partners store members feed = ν.partners store members feed := fun feed hf => by
    rw [Match.partners, Match.partners, funext (h.accepts feed hf hμ)]
  cases kind with
  | join feed => simp only [NodeKind.extensions, hpartners feed rfl]
  | absent feed => simp only [NodeKind.extensions, hpartners feed rfl]
  | present feed => simp only [NodeKind.extensions, hpartners feed rfl]
  | accumulate feed fold having =>
    simp only [NodeKind.extensions, Match.folded?, hpartners feed rfl,
      funext (h.admits feed fold having rfl hμ)]
  | predicate p scope => simp only [NodeKind.extensions, h.holds p scope rfl hμ]

/-! ## Tokens and evaluation -/

variable (R) in
/-- The tokens of a node hold some matches, up to results that are alike. -/
structure Matching.Holds (m : Matching) (node : Option NodeId) (found : List Match) : Prop where
  sound : ∀ {t}, m.LiveAt t node → ∃ μ ∈ found, (m.matchOf t).Alike R μ
  complete : ∀ {μ}, μ ∈ found → ∃ t, m.LiveAt t node ∧ (m.matchOf t).Alike R μ

/-- The empty match is held by the root token. -/
theorem Matching.Forest.holds_root (F : m.Forest net) : m.Holds R none [[]] where
  sound {t} hl := by
    obtain rfl := F.eq_root hl
    exact ⟨[], List.mem_singleton_self _, matchOf_root F ▸ List.Forall₂.nil⟩
  complete {μ} hμ := by
    obtain rfl := List.mem_singleton.1 hμ
    exact ⟨rootToken, F.live_root, matchOf_root F ▸ List.Forall₂.nil⟩

/-- Where nothing is amiss, and nothing tells results apart that may stand for each other. -/
structure Evaluated (net : Network) (store : WorkingMemory) (x : Ledger) (m : Matching)
    (R : Value → Value → Prop) : Prop where
  sound : Sound net store x m
  idle : ∀ n left, ¬ x.busy n left
  told : ∀ n h, ¬ x.late n h
  settled : ∀ n left, ¬ x.stale n left
  direct : m.deferred = none
  sums : ∀ {n kind}, net.kind? n = some kind → kind.SumsIntegers store m.members
  blind : ∀ {n kind}, net.kind? n = some kind → kind.Blind R store
  refl : ∀ v, R v v
  agree : ∀ {a b}, x.agree a b → Option.Rel R a b

namespace Evaluated

/-- What a node has made for a left token. -/
theorem made (E : Evaluated net store x m R) {n : NodeId} {node : BetaNode} {left : TokenId}
    (hn : net.node? n = some node) (hl : m.LiveAt left node.parent) :
    ∃ es, (∀ e, (∃ t, m.Made n left t e) ↔ e ∈ es) ∧
      node.kind.Extends x.agree (node.kind.extensions store m.members (m.matchOf left)) es := by
  have hk := Network.kind?_eq hn
  refine (E.sound.settled hn hl (E.idle n left)).made_extends (E.told n) (E.settled n left) ?_ (E.sums hk)
    fun hmade => E.sound.carries hmade hk
  show m.deferred.any _ = false
  rw [E.direct]
  rfl

/-- A node goes on from the matches of its parent. -/
theorem step (E : Evaluated net store x m R) {n : NodeId} {node : BetaNode}
    (hn : net.node? n = some node) {branch : List NodeKind}
    (H : m.Holds R node.parent (evaluate store m.members branch)) :
    m.Holds R (some n) (evaluate store m.members (branch ++ [node.kind])) where
  sound {t} hl := by
    have F := E.sound.forest
    obtain ⟨o, ho, hnode⟩ := hl
    obtain ⟨p, k, node', above, hp, hk, hnode', hlt, habove, hparent, -⟩ :=
      F.made ho (F.ne_root ho hnode)
    obtain rfl := Option.some.inj (hnode.symm.trans hk)
    obtain rfl := Option.some.inj (hn.symm.trans hnode')
    have hleft : m.LiveAt p node.parent := ⟨above, habove, hparent⟩
    obtain ⟨μ, hμ, halike⟩ := H.sound hleft
    obtain ⟨es, hes, hext⟩ := E.made hn hleft
    have hstep : o.step ∈ es := (hes _).1 ⟨t, Matching.made_of_origin ho hnode hp⟩
    rw [(E.blind (Network.kind?_eq hn)).extensions_eq m.members halike] at hext
    rw [Matching.matchOf_made ho hp hlt habove]
    rcases hext with rfl | ⟨feed, fold, having, result, result', -, hagree, rfl, hexact⟩
    · exact ⟨_, mem_evaluate_concat.2 ⟨μ, hμ, _, hstep, rfl⟩, halike.concat (.refl E.refl _)⟩
    · obtain ⟨v, hv, hcarried⟩ := List.mem_map.1 hstep
      rw [Option.mem_toList] at hv
      subst hv
      cases E.agree hagree with
      | @some _ w hR =>
        have hadds : Extension.result w ∈ node.kind.extensions store m.members μ :=
          hexact ▸ List.mem_singleton_self _
        refine ⟨μ ++ [.result w], mem_evaluate_concat.2 ⟨μ, hμ, _, hadds, rfl⟩, halike.concat ?_⟩
        exact hcarried ▸ ⟨rfl, .some hR⟩
  complete {ν} hν := by
    have F := E.sound.forest
    obtain ⟨μ, hμ, e, he, rfl⟩ := mem_evaluate_concat.1 hν
    obtain ⟨left, hleft, halike⟩ := H.complete hμ
    obtain ⟨es, hes, hext⟩ := E.made hn hleft
    rw [(E.blind (Network.kind?_eq hn)).extensions_eq m.members halike] at hext
    -- what evaluation adds has been made, or a result that may stand for it
    obtain ⟨e', he', hR⟩ : ∃ e' ∈ es, e'.Alike R e := by
      rcases hext with rfl | ⟨feed, fold, having, result, result', -, hagree, rfl, hexact⟩
      · exact ⟨e, he, .refl E.refl e⟩
      · rw [hexact] at he
        obtain ⟨w, hw, rfl⟩ := List.mem_map.1 he
        rw [Option.mem_toList] at hw
        subst hw
        cases E.agree hagree with
        | some hR => exact ⟨_, List.mem_singleton_self _, rfl, .some hR⟩
    obtain ⟨t, ht⟩ := (hes e').2 he'
    exact ⟨t, ht.live, ht.matchOf F ▸ halike.concat hR⟩

/-- The tokens of a node hold the matches that evaluation finds. -/
theorem holds (E : Evaluated net store x m R) (W : net.WellFormed) {n : NodeId} {node : BetaNode}
    (hn : net.node? n = some node) :
    m.Holds R (some n) (evaluate store m.members (net.branchTo n)) := by
  induction n using Nat.strongRecOn generalizing node with
  | ind n ih =>
    cases hp : node.parent with
    | none =>
      rw [Network.branchTo_top hn hp]
      have H : m.Holds R node.parent (evaluate store m.members []) :=
        hp ▸ E.sound.forest.holds_root
      exact E.step hn H
    | some p =>
      obtain ⟨hlt, above, habove, -⟩ := W.parent hn hp
      rw [Network.branchTo_below hn hp hlt]
      exact E.step hn (hp ▸ ih p hlt habove)

/-- The tokens at a terminal hold the matches of its branch. -/
theorem holds_terminal (E : Evaluated net store x m R) (W : net.WellFormed) {τ : TerminalId}
    {terminal : Terminal} (hτ : net.terminal? τ = some terminal) :
    m.Holds R terminal.node (evaluate store m.members (net.branchOf terminal)) := by
  rw [Network.branchOf]
  cases hnode : terminal.node with
  | none => exact E.sound.forest.holds_root
  | some n =>
    have hmem := W.terminals.2 ⟨terminal, hτ, hnode⟩
    cases hn : net.node? n with
    | none =>
      rw [Network.terminalsOf, hn] at hmem
      cases hmem
    | some node => exact E.holds W hn

end Evaluated

end RuleNet
