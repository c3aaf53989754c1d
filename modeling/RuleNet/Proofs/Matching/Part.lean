/-
  How nodes are told of facts that have left their memories.

  * `Sound.part`: a fact no longer goes with a left token of a node.
  * `Sound.retractRight`: after a node has been told of a fact, it is no longer late.
  * `NodeKind.reopens`: the kinds that make tokens when a fact goes.
-/
import RuleNet.Proofs.Matching.Meet

namespace RuleNet

open Matching (Extension contribution)

/-- Whether a node may make tokens when a fact goes. -/
def NodeKind.reopens : NodeKind → Bool
  | .absent _ => true
  | .accumulate _ _ _ => true
  | _ => false

/-- The spot of a left token of a node, if the node may make tokens when a fact goes. -/
def Spots.reopened (kind : NodeKind) (Q : Spots) : Spots :=
  fun n left => kind.reopens = true ∧ Q n left

namespace Ledger

variable {x : Ledger} {store : WorkingMemory} {n : NodeId} {μ : Match} {ids : IdSet} {feed : Feed}
  {facts : Handle → Prop} {h : Handle}

theorem Covers.erase (hc : x.Covers n store ids μ feed facts) (hno : h ∉ ids) :
    x.Covers n store ids μ feed fun i => i ≠ h ∧ facts i := fun i =>
  ⟨fun hi => (hc i).1 hi.2,
    fun hi ha => ((hc i).2 hi ha).imp_left fun hf => ⟨fun e => hno (e ▸ hi), hf⟩⟩

/-- A node does not list a fact for the moment. -/
def unlist (x : Ledger) (n : NodeId) (h : Handle) : Ledger :=
  { x with unlisted := fun n' i => x.unlisted n' i ∨ (n' = n ∧ i = h) }

end Ledger

/-! ## One left token -/

section
variable {net : Network} {store : WorkingMemory} {x : Ledger} {m : Matching} {n : NodeId}
  {node : BetaNode} {left : TokenId} {h : Handle} {feed : Feed}

/-- A fact that is not listed is no longer found for a left token. -/
theorem Sound.lose (S : Sound net store x m) (hl : m.LeftOf net n left) (hb : x.busy n left)
    (hun : x.unlisted n h) {key : Option Value} {facts : IdSet} {output : Option TokenId}
    {marked : Bool} (habout : m.about n left = ⟨true, key, some facts, none, output, marked⟩)
    {m' : Matching} (hm' : m.setNode n { m.node n with
      found := (m.node n).found.insert left (facts.erase h) } = m') :
    Sound net store x m' ∧ Writes (.at n left) m m' ∧
    m'.about n left = ⟨true, key, some (facts.erase h), none, output, marked⟩ := by
  have hself : ∀ i, left ∈ (m.node n).foundBy.get i ↔
      ¬ x.unlisted n i ∧ i ∈ facts.erase h := fun i => by
    rw [S.listed, habout, LeftRecord.lists_found, IdSet.mem_erase]
    refine and_congr_right fun hi => (and_iff_right fun e => hi ?_).symm
    exact e ▸ hun
  obtain ⟨S', hw, habout'⟩ := S.putFound hl hb (by rw [habout]) hself (fun _ _ _ => Iff.rfl) hm'
  refine ⟨S', hw, ?_⟩
  rw [habout', habout]

/-- A fact that is not listed no longer contributes to the result of a left token. -/
theorem Sound.discount (S : Sound net store x m) (hl : m.LeftOf net n left) (hb : x.busy n left)
    (hun : x.unlisted n h) {key : Option Value} {acc : Accumulator} {output : Option TokenId}
    {marked : Bool} (habout : m.about n left = ⟨true, key, none, some acc, output, marked⟩)
    {m' : Matching} (hm' : m.setNode n { m.node n with
      accumulators := (m.node n).accumulators.insert left (acc.remove h) } = m') :
    Sound net store x m' ∧ Writes (.at n left) m m' ∧
    m'.about n left = ⟨true, key, none, some (acc.remove h), output, marked⟩ := by
  have hself : ∀ i, left ∈ (m.node n).foundBy.get i ↔
      ¬ x.unlisted n i ∧ (acc.remove h).contains i = true := fun i => by
    rw [S.listed, habout, LeftRecord.lists_accumulator, Accumulator.contains_remove]
    refine and_congr_right fun hi => (and_iff_right fun e => hi ?_).symm
    exact e ▸ hun
  obtain ⟨S', hw, habout'⟩ := S.putAccumulator hl hb (by rw [habout]) hself
    (fun _ _ _ => Iff.rfl) hm'
  refine ⟨S', hw, ?_⟩
  rw [habout', habout]

variable (W : net.WellFormed) (S : Sound net store x m) (K : Stocked net store m)
  (hx : x.Calm net n) (hn : net.node? n = some node) (hl : m.LiveAt left node.parent)
  (hidle : ¬ x.busy n left) (hm : h ∉ m.members feed.alpha) (hun : x.unlisted n h)
include W S K hx hn hl hidle hm hun

/-- A match is passed on when the last fact for it has gone. -/
theorem Sound.part_absent (hkind : node.kind = .absent feed) {m' : Matching}
    (hm' : m.part net store n (.absent feed) h left = m') :
    Sound net store x m' ∧ Moves net (.at n left) (.at n left) m m' ∧
    ¬ (m'.about n left).Lists h := by
  have hs := S.settled hn hl hidle
  rw [hkind] at hs
  obtain ⟨facts, output, hr, hc, hp⟩ := hs
  have hfound : (m.node n).found[left]? = some facts := congrArg LeftRecord.found hr
  simp only [Matching.part, hfound] at hm'
  obtain ⟨S₁, hw, habout⟩ := (S.mono (x.le_hold n left)).lose ⟨node, hn, hl⟩
    (Or.inr ⟨rfl, rfl⟩) hun hr rfl
  generalize m.setNode n { m.node n with found := (m.node n).found.insert left (facts.erase h) } =
    m₁ at hm' S₁ hw habout
  have hmid : ∃ output', Sound net store (x.hold n left) m' ∧
      Moves net (.at n left) (.at n left) m m' ∧
      m'.about n left =
        ⟨true, (m.matchOf left).keyFor store feed, some (facts.erase h), none, output', false⟩ ∧
      Passes (m'.Made n left) output' (if (facts.erase h).isEmpty then some .nothing else none) := by
    split at hm'
    · next hsame =>
      subst hm'
      have hempty : (facts.erase h).isEmpty = facts.isEmpty := by
        refine IdSet.isEmpty_erase ?_
        rw [Bool.or_eq_true, Bool.not_eq_true', Bool.not_eq_true'] at hsame
        refine hsame.imp_left fun hno hin => ?_
        rw [Std.ExtTreeSet.contains_iff_mem.2 hin] at hno
        cases hno
      refine ⟨output, S₁, hw.moves S.forest Or.inl id, habout, ?_⟩
      rw [hempty, Matching.made_congr hw.tokens]
      exact hp
    · next hlast =>
      rw [Bool.or_eq_true, Bool.not_eq_true', Bool.not_eq_true', not_or, Bool.not_eq_false,
        Bool.not_eq_false] at hlast
      obtain ⟨hin, hempty⟩ := hlast
      have hfull : facts.isEmpty = false := Bool.eq_false_iff.2 fun he =>
        IdSet.isEmpty_iff_forall.1 he h (Std.ExtTreeSet.contains_iff_mem.1 hin)
      rw [hfull, if_neg Bool.false_ne_true] at hp
      have hl₁ : m₁.LiveAt left node.parent := by
        rw [Matching.liveAt_congr hw.tokens]
        exact hl
      have E := (Matching.emits W store n).emit S₁ (K.of_alphas hw.alphas) hx.hold hn hl₁
        (Or.inr ⟨rfl, rfl⟩) (e := .nothing) (hkind ▸ rfl)
      rw [hm'] at E
      have habout' := E.about
      rw [Network.kind?_eq hn, hkind, habout] at habout'
      refine ⟨_, E.sound, (hw.moves S.forest Or.inl id).trans E.moves, habout', ?_⟩
      rw [hempty, if_pos rfl]
      refine ⟨_, rfl, fun t e => ?_⟩
      rw [E.made, Matching.made_congr hw.tokens]
      exact or_iff_right (hp.2 t e)
  obtain ⟨output', S', M, habout', hp'⟩ := hmid
  refine ⟨S'.release_one fun {node'} hn' hl' => ?_, M, ?_⟩
  · obtain rfl := Option.some.inj (hn.symm.trans hn')
    rw [hkind, M.members, (M.keeps_at W S.forest S'.forest hn hl).2, habout']
    exact ⟨facts.erase h, output', rfl, (hc.erase hm).congr fun i => IdSet.mem_erase.symm, hp'⟩
  · rw [habout', LeftRecord.lists_found, IdSet.mem_erase]
    exact fun h => h.1 rfl

omit K hx in
/-- A match is taken back when the last fact for it has gone. -/
theorem Sound.part_present (hkind : node.kind = .present feed) {m' : Matching}
    (hm' : m.part net store n (.present feed) h left = m') :
    Sound net store x m' ∧ Moves net (.at n left) .none m m' ∧
    ¬ (m'.about n left).Lists h := by
  have hs := S.settled hn hl hidle
  rw [hkind] at hs
  obtain ⟨facts, output, hr, hc, hp⟩ := hs
  have hfound : (m.node n).found[left]? = some facts := congrArg LeftRecord.found hr
  simp only [Matching.part, hfound] at hm'
  obtain ⟨S₁, hw, habout⟩ := (S.mono (x.le_hold n left)).lose ⟨node, hn, hl⟩
    (Or.inr ⟨rfl, rfl⟩) hun hr rfl
  generalize m.setNode n { m.node n with found := (m.node n).found.insert left (facts.erase h) } =
    m₁ at hm' S₁ hw habout
  have hmid : ∃ output', Sound net store (x.hold n left) m' ∧
      Moves net (.at n left) .none m m' ∧
      m'.about n left =
        ⟨true, (m.matchOf left).keyFor store feed, some (facts.erase h), none, output', false⟩ ∧
      Passes (m'.Made n left) output' (if (facts.erase h).isEmpty then none else some .nothing) := by
    split at hm'
    · next hsame =>
      subst hm'
      have hempty : (facts.erase h).isEmpty = facts.isEmpty := by
        refine IdSet.isEmpty_erase ?_
        rw [Bool.or_eq_true, Bool.not_eq_true', Bool.not_eq_true'] at hsame
        refine hsame.imp_left fun hno hin => ?_
        rw [Std.ExtTreeSet.contains_iff_mem.2 hin] at hno
        cases hno
      refine ⟨output, S₁, hw.moves S.forest Or.inl False.elim, habout, ?_⟩
      rw [hempty, Matching.made_congr hw.tokens]
      exact hp
    · next hlast =>
      rw [Bool.or_eq_true, Bool.not_eq_true', Bool.not_eq_true', not_or, Bool.not_eq_false,
        Bool.not_eq_false] at hlast
      obtain ⟨hin, hempty⟩ := hlast
      have hfull : facts.isEmpty = false := Bool.eq_false_iff.2 fun he =>
        IdSet.isEmpty_iff_forall.1 he h (Std.ExtTreeSet.contains_iff_mem.1 hin)
      rw [hfull, if_neg Bool.false_ne_true] at hp
      have hl₁ : m₁.LeftOf net n left := by
        rw [Matching.leftOf_congr hw.tokens]
        exact ⟨node, hn, hl⟩
      have hp₁ : Passes (m₁.Made n left) (m₁.about n left).output (some .nothing) := by
        rw [Matching.made_congr hw.tokens, habout]
        exact hp
      obtain ⟨S', M, habout', hno⟩ := S₁.withdraw W hl₁ (Or.inr ⟨rfl, rfl⟩) hp₁ hm'
      rw [habout] at habout'
      refine ⟨_, S', (hw.moves S.forest Or.inl False.elim).trans M, habout', ?_⟩
      rw [hempty, if_pos rfl]
      exact ⟨rfl, hno⟩
  obtain ⟨output', S', M, habout', hp'⟩ := hmid
  have M' : Moves net (.at n left) (.at n left) m m' := M.mono Or.inl False.elim id
  refine ⟨S'.release_one fun {node'} hn' hl' => ?_, M, ?_⟩
  · obtain rfl := Option.some.inj (hn.symm.trans hn')
    rw [hkind, M.members, (M'.keeps_at W S.forest S'.forest hn hl).2, habout']
    exact ⟨facts.erase h, output', rfl, (hc.erase hm).congr fun i => IdSet.mem_erase.symm, hp'⟩
  · rw [habout', LeftRecord.lists_found, IdSet.mem_erase]
    exact fun h => h.1 rfl

/-- A fact no longer contributes to the result for a match. -/
theorem Sound.part_accumulate {fold : Fold} {having : Option (Operator × TestOperand Place)}
    (hkind : node.kind = .accumulate feed fold having) {m' : Matching}
    (hm' : m.part net store n (.accumulate feed fold having) h left = m') :
    Sound net store x m' ∧ Moves net (.at n left) (.at n left) m m' ∧
    ¬ (m'.about n left).Lists h := by
  have hs := S.settled hn hl hidle
  rw [hkind] at hs
  obtain ⟨acc, output, marked, result, hr, hc, hf, hp, hrest⟩ := hs
  have hacc : (m.node n).accumulators[left]? = some acc := congrArg LeftRecord.accumulator hr
  simp only [Matching.part, hacc] at hm'
  split at hm'
  · obtain ⟨S₁, hw, habout⟩ := (S.mono (x.le_hold n left)).discount ⟨node, hn, hl⟩
      (Or.inr ⟨rfl, rfl⟩) hun hr rfl
    have hp₁ := hp
    rw [← Matching.made_congr hw.tokens] at hp₁
    have hl₁ := hl
    rw [← Matching.liveAt_congr hw.tokens] at hl₁
    obtain ⟨S', M, output', marked', result', habout', hp', hagree⟩ := S₁.refresh W
      (K.of_alphas hw.alphas) hx.hold hn hkind hl₁ (Or.inr ⟨rfl, rfl⟩) habout hp₁ hm'
    have M' := (hw.moves S.forest Or.inl id).trans M
    refine ⟨S'.release_one fun {node'} hn' hl' => ?_, M', ?_⟩
    · obtain rfl := Option.some.inj (hn.symm.trans hn')
      have hkept := (M'.keeps_at W S.forest S'.forest hn hl).2
      rw [hkept] at hagree
      rw [hkind, M'.members, hkept, habout']
      refine ⟨_, output', marked', result', rfl,
        (hc.erase hm).congr fun i => Accumulator.contains_remove.symm, ?_, hp', hagree⟩
      refine ⟨(Accumulator.fold_remove _ _).trans hf.same_fold, hf.regular.remove _,
        fun {i v} hv => ?_⟩
      rw [Accumulator.contributions_remove] at hv
      split at hv
      · cases hv
      · exact hf.contributions hv
    · rw [habout', LeftRecord.lists_accumulator, Accumulator.contains_remove]
      exact fun h => h.1 rfl
  · next hno =>
    subst hm'
    refine ⟨S, .refl S.forest id, ?_⟩
    rw [hr, LeftRecord.lists_accumulator]
    exact hno

/-- A fact no longer goes with a left token, and its node is told. -/
theorem Sound.part (hf : node.kind.feed? = some feed) (hjoin : node.kind.isJoin = false)
    {m' : Matching} (hm' : m.part net store n node.kind h left = m') :
    Sound net store x m' ∧ Moves net (.at n left) (.reopened node.kind (.at n left)) m m' ∧
    ¬ (m'.about n left).Lists h := by
  have hopen : ∀ {m'}, node.kind.reopens = true → Moves net (.at n left) (.at n left) m m' →
      Moves net (.at n left) (.reopened node.kind (.at n left)) m m' := fun hk M =>
    M.mono Or.inl (fun hb => Or.inl ⟨hk, hb⟩) And.right
  cases hkind : node.kind with
  | join f =>
    rw [hkind] at hjoin
    cases hjoin
  | absent f =>
    rw [hkind] at hf hm' hopen
    cases hf
    obtain ⟨S', M, hno⟩ := S.part_absent W K hx hn hl hidle hm hun hkind hm'
    exact ⟨S', hopen rfl M, hno⟩
  | present f =>
    rw [hkind] at hf hm'
    cases hf
    obtain ⟨S', M, hno⟩ := S.part_present W hn hl hidle hm hun hkind hm'
    exact ⟨S', M.mono Or.inl False.elim And.right, hno⟩
  | accumulate f fold having =>
    rw [hkind] at hf hm' hopen
    cases hf
    obtain ⟨S', M, hno⟩ := S.part_accumulate W K hx hn hl hidle hm hun hkind hm'
    exact ⟨S', hopen rfl M, hno⟩
  | predicate p scope =>
    rw [hkind] at hf
    cases hf

end

/-! ## All left tokens of a node -/

section
variable {net : Network} {store : WorkingMemory} {x : Ledger} {m : Matching} {n : NodeId}
  {node : BetaNode} {h : Handle} {feed : Feed}

/-- A node strikes a fact off its list. -/
theorem writes_unlist (m : Matching) (n : NodeId) (h : Handle) : Writes .none m
    (m.setNode n { m.node n with foundBy := (m.node n).foundBy.erase h }) where
  tokens := rfl
  nextToken := rfl
  tokensByFact := rfl
  events := rfl
  alphas := rfl
  memoriesOf := rfl
  deferring := rfl
  others {n' left} _ := by
    rw [Matching.about_setNode]
    split
    · next heq => subst heq; rfl
    · rfl

theorem Sound.unlist (S : Sound net store x m) (n : NodeId) (h : Handle) :
    Sound net store (x.unlist n h)
      (m.setNode n { m.node n with foundBy := (m.node n).foundBy.erase h }) where
  toChained :=
    have hw := writes_unlist m n h
    (S.toChained.congr hw.tokens hw.nextToken hw.tokensByFact hw.events).relabel rfl rfl
  blank {n' left} hno := by
    rw [(writes_unlist m n h).others id]
    exact S.blank hno
  nodes n' := by
    rw [Matching.node_setNode]
    split
    · next heq =>
      subst heq
      exact ((S.nodes n).unlist h).imp fun i => or_congr_right (and_iff_right rfl).symm
    · next hne =>
      exact (S.nodes n').imp fun i => (or_iff_left fun h => hne h.1.symm).symm
  settled {n' node left} hn hl hb := by
    have hw := writes_unlist m n h
    rw [hw.others id, Matching.matchOf_congr hw.tokens, Matching.made_congr hw.tokens]
    have hs := S.settled hn hl hb
    exact hs.recover (x := x) x.late fun feed hf => hs.covers hf

/-- A node may list a fact again that goes with none of its left tokens. -/
theorem Sound.relist (S : Sound net store (x.unlist n h) m)
    (hno : ∀ left, ¬ (m.about n left).Lists h) : Sound net store x m where
  toChained := S.toChained.relabel rfl rfl
  blank := S.blank
  nodes n' := by
    by_cases heq : n' = n
    · subst heq
      exact ((S.nodes n').imp fun i => or_congr_right (and_iff_right rfl)).relist hno
    · exact (S.nodes n').imp fun i => or_iff_left fun h => heq h.1
  settled hn hl hb := by
    have hs := S.settled hn hl hb
    exact hs.recover (x := x.unlist n h) x.late fun feed hf => hs.covers hf

variable (W : net.WellFormed)
include W

/-- A fact no longer goes with some left tokens of a node, and the node is told for each. -/
theorem Sound.partAll {lefts : List TokenId} (hnodup : lefts.Nodup) (S : Sound net store x m)
    (K : Stocked net store m) (hx : x.Calm net n) (hun : x.unlisted n h)
    (hn : net.node? n = some node) (hf : node.kind.feed? = some feed)
    (hjoin : node.kind.isJoin = false) (hidle : ∀ left, ¬ x.busy n left)
    (hm : h ∉ m.members feed.alpha) (hall : ∀ left ∈ lefts, m.LiveAt left node.parent)
    {m' : Matching} (hm' : lefts.foldl (Matching.part net store n node.kind h) m = m') :
    Sound net store x m' ∧
    Moves net (.each n lefts) (.reopened node.kind (.each n lefts)) m m' ∧
    ∀ left ∈ lefts, ¬ (m'.about n left).Lists h := by
  induction lefts generalizing m with
  | nil =>
    subst hm'
    exact ⟨S, .refl S.forest And.right, fun _ hleft => absurd hleft List.not_mem_nil⟩
  | cons left rest ih =>
    obtain ⟨hleft, hrest⟩ := List.nodup_cons.1 hnodup
    have hl := hall left List.mem_cons_self
    obtain ⟨S₁, M, hno⟩ := S.part W K hx hn hl (hidle left) hm hun hf hjoin rfl
    rw [List.foldl_cons] at hm'
    generalize m.part net store n node.kind h left = m₁ at hm' S₁ M hno
    obtain ⟨S', M', hgone⟩ := ih hrest S₁ (K.of_alphas M.alphas) (M.members ▸ hm)
      (fun l hlmem => (M.keeps_left W S.forest S₁.forest (fun h => h.1) hn
        (hall l (List.mem_cons_of_mem left hlmem))).1) hm'
    refine ⟨S', (M.mono ?_ ?_ And.right).trans (M'.mono ?_ ?_ And.right), fun l hlmem => ?_⟩
    · rintro n' l ⟨rfl, rfl⟩
      exact Or.inl ⟨rfl, List.mem_cons_self⟩
    · rintro n' l ⟨hk, rfl, rfl⟩
      exact Or.inl ⟨hk, rfl, List.mem_cons_self⟩
    · exact fun h => Or.inl ⟨h.1, List.mem_cons_of_mem left h.2⟩
    · exact fun h => Or.inl ⟨h.1, h.2.1, List.mem_cons_of_mem left h.2.2⟩
    · rcases List.mem_cons.1 hlmem with rfl | hlmem
      · have hapart : ¬ net.Touches (.each n rest) n l :=
          W.not_touches (fun h => h.1) fun h => hleft h.2
        have hlt : l < m₁.nextToken :=
          Nat.lt_of_lt_of_le (S.forest.lt_next hl.choose_spec.1) M.next
        rw [M'.record hapart hlt]
        exact hno
      · exact hgone l hlmem

/-- After a node has been told of a fact that has left its memory, it is no longer late. -/
theorem Sound.retractRight (S : Sound net store x m) (K : Stocked net store m) (hx : x.Calm net n)
    (hun : ¬ x.unlisted n h) (hn : net.node? n = some node) (hf : node.kind.feed? = some feed)
    (hjoin : node.kind.isJoin = false) (hidle : ∀ left, ¬ x.busy n left)
    (hm : h ∉ m.members feed.alpha) {m' : Matching} (hm' : m.retractRight net store h n = m') :
    Sound net store (x.tell (· = n) h) m' ∧
    Moves net (.node n) (.reopened node.kind (.node n)) m m' := by
  simp only [Matching.retractRight, Network.kind?_eq hn] at hm'
  have S₁ := S.unlist n h
  have hw := writes_unlist m n h
  generalize m.setNode n { m.node n with foundBy := (m.node n).foundBy.erase h } = m₁
    at hm' S₁ hw
  have hx₁ : (x.unlist n h).Calm net n := ⟨hx.filed, fun hd hu =>
    hu.elim (hx.listed hd) fun h => W.not_beneath_self n (h.1 ▸ hd), hx.agree⟩
  have hlisted : ∀ {left}, left ∈ ((m.node n).foundBy.get h).toList ↔ (m.about n left).Lists h :=
    Std.ExtTreeSet.mem_toList.trans (S.listed.trans (and_iff_right hun))
  have hlive : ∀ {left}, (m.about n left).Lists h → m.LiveAt left node.parent := by
    intro left hlists
    apply Classical.byContradiction
    intro hno
    rw [S.blank fun ⟨node', hn', hl'⟩ => hno (Option.some.inj (hn.symm.trans hn') ▸ hl')] at hlists
    exact LeftRecord.not_lists hlists
  obtain ⟨S', M, hgone⟩ := Sound.partAll W (IdSet.nodup_toList _) S₁ (K.of_alphas hw.alphas) hx₁
    (Or.inr ⟨rfl, rfl⟩) hn hf hjoin hidle (by rw [hw.members]; exact hm)
    (fun left hleft => by
      rw [Matching.liveAt_congr hw.tokens]
      exact hlive (hlisted.1 hleft)) hm'
  have hnone : ∀ left, ¬ (m'.about n left).Lists h := by
    intro left hlists
    by_cases hin : left ∈ ((m.node n).foundBy.get h).toList
    · exact hgone left hin hlists
    · have hl' : m'.LiveAt left node.parent := by
        apply Classical.byContradiction
        intro hno
        rw [S'.blank fun ⟨node', hn', hl'⟩ =>
          hno (Option.some.inj (hn.symm.trans hn') ▸ hl')] at hlists
        exact LeftRecord.not_lists hlists
      have hl₁ := M.left_of W S₁.forest S'.forest (fun h => h.1) hn hl'
      rw [M.record (W.not_touches (fun h => h.1) fun h => hin h.2)
        (S₁.forest.lt_next hl₁.choose_spec.1), hw.others id] at hlists
      exact hin (hlisted.2 hlists)
  refine ⟨(S'.relist hnone).tell fun {n' node' left feed'} heq hn' hl hb hf' => ?_,
    (hw.moves S.forest False.elim And.right).trans (M.mono ?_ ?_ And.right)⟩
  · subst heq
    obtain rfl := Option.some.inj (hn.symm.trans hn')
    obtain rfl := Option.some.inj (hf.symm.trans hf')
    refine iff_of_false (fun hg => hnone left ?_) fun ha => hm ?_
    · cases hkind : node.kind with
      | join f =>
        rw [hkind] at hjoin
        cases hjoin
      | _ =>
        rw [hkind] at hg
        exact hg
    · rw [← hw.members, ← M.members]
      exact ha.1
  · exact fun h => Or.inl h.1
  · exact fun h => Or.inl ⟨h.1, h.2.1⟩

end

end RuleNet
