/-
  How nodes are told of facts that come to their memories.

  * `Sound.meet`: a fact goes with a left token of a node.
  * `Sound.mem_lefts`: the left tokens that a fact goes with, as the node finds them.
  * `Sound.assertRight`: after a node has been told of a fact, it is no longer late.
-/
import RuleNet.Proofs.Matching.Results

namespace RuleNet

open Matching (Extension contribution)

/-! ## One left token -/

namespace Ledger

variable {x : Ledger} {store : WorkingMemory} {n : NodeId} {μ : Match} {ids : IdSet} {feed : Feed}
  {facts : Handle → Prop} {h : Handle}

theorem Covers.insert (hc : x.Covers n store ids μ feed facts) (hm : h ∈ ids)
    (ha : μ.accepts store feed h = true) :
    x.Covers n store ids μ feed fun i => i = h ∨ facts i := fun i => by
  refine ⟨?_, fun hi ha' => ((hc i).2 hi ha').imp_left Or.inr⟩
  rintro (rfl | hi)
  · exact Or.inl ⟨hm, ha⟩
  · exact (hc i).1 hi

theorem Calm.hold {net : Network} {n' : NodeId} {left : TokenId} (hx : x.Calm net n) :
    (x.hold n' left).Calm net n :=
  ⟨hx.filed, hx.listed, hx.agree⟩

end Ledger

section
variable {net : Network} {store : WorkingMemory} {x : Ledger} {m : Matching} {n : NodeId}
  {node : BetaNode} {left : TokenId} {h : Handle} {feed : Feed}

theorem Recorded.listed (R : Recorded net x m) {i : Handle} :
    left ∈ (m.node n).foundBy.get i ↔ ¬ x.unlisted n i ∧ (m.about n left).Lists i :=
  (R.nodes n).listed

/-- One more fact is found for a left token. -/
theorem Sound.find (S : Sound net store x m) (hl : m.LeftOf net n left) (hb : x.busy n left)
    (hun : ¬ x.unlisted n h) {key : Option Value} {facts : IdSet} {output : Option TokenId}
    {marked : Bool} (habout : m.about n left = ⟨true, key, some facts, none, output, marked⟩)
    {first : Bool} {m' : Matching} (hm' : m.find n left h = (first, m')) :
    first = facts.isEmpty ∧ Sound net store x m' ∧ Writes (.at n left) m m' ∧
    m'.about n left = ⟨true, key, some (facts.insert h), none, output, marked⟩ := by
  have hfound : (m.node n).found[left]? = some facts := congrArg LeftRecord.found habout
  simp only [Matching.find, hfound, Option.getD_some, Prod.mk.injEq] at hm'
  have hself : ∀ i, left ∈ ((m.node n).foundBy.file h left).get i ↔
      ¬ x.unlisted n i ∧ i ∈ facts.insert h := fun i => by
    rw [Index.mem_get_file, S.listed, habout, LeftRecord.lists_found, IdSet.mem_insert]
    constructor
    · rintro (⟨rfl, -⟩ | hi)
      · exact ⟨hun, Or.inl rfl⟩
      · exact ⟨hi.1, Or.inr hi.2⟩
    · rintro ⟨hi, rfl | hf⟩
      · exact Or.inl ⟨rfl, rfl⟩
      · exact Or.inr ⟨hi, hf⟩
  obtain ⟨S', hw, habout'⟩ := S.putFound hl hb (by rw [habout]) hself
    (fun left' i hne => Index.mem_get_file_of_ne hne) hm'.2
  refine ⟨hm'.1.symm, S', hw, ?_⟩
  rw [habout', habout]

/-- One more fact contributes to the result of a left token. -/
theorem Sound.contribute (S : Sound net store x m) (hl : m.LeftOf net n left) (hb : x.busy n left)
    (hun : ¬ x.unlisted n h) {key : Option Value} {acc : Accumulator} {output : Option TokenId}
    {marked : Bool} (habout : m.about n left = ⟨true, key, none, some acc, output, marked⟩)
    (v : Value) {m' : Matching} (hm' : m.setNode n { m.node n with
      accumulators := (m.node n).accumulators.insert left (acc.add h v)
      foundBy := (m.node n).foundBy.file h left } = m') :
    Sound net store x m' ∧ Writes (.at n left) m m' ∧
    m'.about n left = ⟨true, key, none, some (acc.add h v), output, marked⟩ := by
  have hself : ∀ i, left ∈ ((m.node n).foundBy.file h left).get i ↔
      ¬ x.unlisted n i ∧ (acc.add h v).contains i = true := fun i => by
    rw [Index.mem_get_file, S.listed, habout, LeftRecord.lists_accumulator,
      Accumulator.contains_add]
    constructor
    · rintro (⟨rfl, -⟩ | hi)
      · exact ⟨hun, Or.inl rfl⟩
      · exact ⟨hi.1, Or.inr hi.2⟩
    · rintro ⟨hi, rfl | hf⟩
      · exact Or.inl ⟨rfl, rfl⟩
      · exact Or.inr ⟨hi, hf⟩
  obtain ⟨S', hw, habout'⟩ := S.putAccumulator hl hb (by rw [habout]) hself
    (fun left' i hne => Index.mem_get_file_of_ne hne) hm'
  refine ⟨S', hw, ?_⟩
  rw [habout', habout]

variable (W : net.WellFormed) (S : Sound net store x m) (K : Stocked net store m)
  (hx : x.Calm net n) (hn : net.node? n = some node) (hl : m.LiveAt left node.parent)
  (hidle : ¬ x.busy n left) (hm : h ∈ m.members feed.alpha)
  (ha : (m.matchOf left).accepts store feed h = true)
include W S K hx hn hl hidle hm ha

/-- A fact extends a match. -/
theorem Sound.meet_join (hkind : node.kind = .join feed)
    (htwice : x.twice n left h ∨ ∀ t, ¬ m.Made n left t (.fact h)) {m' : Matching}
    (hm' : m.emit net store n left (.fact h) = m') :
    Sound net store x m' ∧ Moves net (.at n left) (.at n left) m m' ∧
    ∃ t, m'.Made n left t (.fact h) := by
  have E := (Matching.emits W store n).emit (S.mono (x.le_hold n left)) K hx.hold hn hl
    (Or.inr ⟨rfl, rfl⟩) (e := .fact h) (hkind ▸ ⟨h, rfl⟩)
  rw [hm'] at E
  have hkept := E.moves.keeps_at W S.forest E.sound.forest hn hl
  have habout := E.about
  rw [Network.kind?_eq hn, hkind] at habout
  have hs := S.settled hn hl hidle
  rw [hkind] at hs
  obtain ⟨hr, hc, hone⟩ := hs
  refine ⟨E.sound.release_one fun {node'} hn' hl' => ?_, E.moves, m.nextToken,
    E.made.2 (Or.inr ⟨rfl, rfl⟩)⟩
  obtain rfl := Option.some.inj (hn.symm.trans hn')
  rw [hkind, E.moves.members, hkept.2, habout]
  refine ⟨hr, (hc.insert hm ha).congr fun i => ?_, fun t t' i ht ht' => ?_⟩
  · constructor
    · rintro (rfl | ⟨t, ht⟩)
      · exact ⟨_, E.made.2 (Or.inr ⟨rfl, rfl⟩)⟩
      · exact ⟨t, E.made.2 (Or.inl ht)⟩
    · rintro ⟨t, ht⟩
      rcases E.made.1 ht with ht | ⟨-, he⟩
      · exact Or.inr ⟨t, ht⟩
      · cases he
        exact Or.inl rfl
  · rcases E.made.1 ht with ht | ⟨rfl, he⟩
    · rcases E.made.1 ht' with ht' | ⟨rfl, he⟩
      · exact hone t t' i ht ht'
      · cases he
        exact Or.inr (htwice.resolve_right fun hno => hno t ht)
    · cases he
      rcases E.made.1 ht' with ht' | ⟨rfl, -⟩
      · exact Or.inr (htwice.resolve_right fun hno => hno t' ht')
      · exact Or.inl rfl

variable (hun : ¬ x.unlisted n h)
include hun

omit K hx in
/-- A match that was passed on while there was no fact for it is no longer. -/
theorem Sound.meet_absent (hkind : node.kind = .absent feed) {m' : Matching}
    (hm' : m.meet net store n (.absent feed) h left = m') :
    Sound net store x m' ∧ Moves net (.at n left) (.at n left) m m' ∧
    (m'.about n left).Lists h := by
  have hs := S.settled hn hl hidle
  rw [hkind] at hs
  obtain ⟨facts, output, hr, hc, hp⟩ := hs
  rcases hfind : m.find n left h with ⟨first, m₁⟩
  obtain ⟨rfl, S₁, hw, habout⟩ := (S.mono (x.le_hold n left)).find ⟨node, hn, hl⟩
    (Or.inr ⟨rfl, rfl⟩) hun hr hfind
  simp only [Matching.meet, hfind] at hm'
  have hl₁ : m₁.LeftOf net n left := by
    rw [Matching.leftOf_congr hw.tokens]
    exact ⟨node, hn, hl⟩
  have hmid : ∃ output', Sound net store (x.hold n left) m' ∧
      Moves net (.at n left) (.at n left) m m' ∧
      m'.about n left =
        ⟨true, (m.matchOf left).keyFor store feed, some (facts.insert h), none, output', false⟩ ∧
      Passes (m'.Made n left) output' none := by
    cases hempty : facts.isEmpty with
    | true =>
      rw [hempty, if_pos rfl] at hm' hp
      have hp₁ : Passes (m₁.Made n left) (m₁.about n left).output (some .nothing) := by
        rw [Matching.made_congr hw.tokens, habout]
        exact hp
      obtain ⟨S', M, habout', hno⟩ := S₁.withdraw W hl₁ (Or.inr ⟨rfl, rfl⟩) hp₁ hm'
      rw [habout] at habout'
      exact ⟨none, S', (hw.moves S.forest Or.inl id).trans (M.mono Or.inl False.elim id), habout',
        rfl, hno⟩
    | false =>
      rw [hempty, if_neg Bool.false_ne_true] at hm' hp
      subst hm'
      refine ⟨output, S₁, hw.moves S.forest Or.inl id, habout, ?_⟩
      rw [Matching.made_congr hw.tokens]
      exact hp
  obtain ⟨output', S', M, habout', hp'⟩ := hmid
  refine ⟨S'.release_one fun {node'} hn' hl' => ?_, M, ?_⟩
  · obtain rfl := Option.some.inj (hn.symm.trans hn')
    rw [hkind, M.members, (M.keeps_at W S.forest S'.forest hn hl).2, habout']
    refine ⟨facts.insert h, output', rfl, (hc.insert hm ha).congr fun i => IdSet.mem_insert.symm, ?_⟩
    rw [IdSet.isEmpty_insert]
    exact hp'
  · rw [habout', LeftRecord.lists_found]
    exact Std.ExtTreeSet.mem_insert_self

/-- A match is passed on with the first fact that there is for it. -/
theorem Sound.meet_present (hkind : node.kind = .present feed) {m' : Matching}
    (hm' : m.meet net store n (.present feed) h left = m') :
    Sound net store x m' ∧ Moves net (.at n left) (.at n left) m m' ∧
    (m'.about n left).Lists h := by
  have hs := S.settled hn hl hidle
  rw [hkind] at hs
  obtain ⟨facts, output, hr, hc, hp⟩ := hs
  rcases hfind : m.find n left h with ⟨first, m₁⟩
  obtain ⟨rfl, S₁, hw, habout⟩ := (S.mono (x.le_hold n left)).find ⟨node, hn, hl⟩
    (Or.inr ⟨rfl, rfl⟩) hun hr hfind
  simp only [Matching.meet, hfind] at hm'
  have hl₁ : m₁.LiveAt left node.parent := by
    rw [Matching.liveAt_congr hw.tokens]
    exact hl
  have hmid : ∃ output', Sound net store (x.hold n left) m' ∧
      Moves net (.at n left) (.at n left) m m' ∧
      m'.about n left =
        ⟨true, (m.matchOf left).keyFor store feed, some (facts.insert h), none, output', false⟩ ∧
      Passes (m'.Made n left) output' (some .nothing) := by
    cases hempty : facts.isEmpty with
    | true =>
      rw [hempty, if_pos rfl] at hm' hp
      have E := (Matching.emits W store n).emit S₁ (K.of_alphas hw.alphas) hx.hold hn hl₁
        (Or.inr ⟨rfl, rfl⟩) (e := .nothing) (hkind ▸ rfl)
      rw [hm'] at E
      have habout' := E.about
      rw [Network.kind?_eq hn, hkind, habout] at habout'
      refine ⟨_, E.sound, (hw.moves S.forest Or.inl id).trans E.moves, habout', _, rfl,
        fun t e => ?_⟩
      rw [E.made, Matching.made_congr hw.tokens]
      exact or_iff_right (hp.2 t e)
    | false =>
      rw [hempty, if_neg Bool.false_ne_true] at hm' hp
      subst hm'
      refine ⟨output, S₁, hw.moves S.forest Or.inl id, habout, ?_⟩
      rw [Matching.made_congr hw.tokens]
      exact hp
  obtain ⟨output', S', M, habout', hp'⟩ := hmid
  refine ⟨S'.release_one fun {node'} hn' hl' => ?_, M, ?_⟩
  · obtain rfl := Option.some.inj (hn.symm.trans hn')
    rw [hkind, M.members, (M.keeps_at W S.forest S'.forest hn hl).2, habout']
    refine ⟨facts.insert h, output', rfl, (hc.insert hm ha).congr fun i => IdSet.mem_insert.symm, ?_⟩
    rw [IdSet.isEmpty_insert]
    exact hp'
  · rw [habout', LeftRecord.lists_found]
    exact Std.ExtTreeSet.mem_insert_self

/-- A fact contributes to the result for a match. -/
theorem Sound.meet_accumulate {fold : Fold} {having : Option (Operator × TestOperand Place)}
    (hkind : node.kind = .accumulate feed fold having) {m' : Matching}
    (hm' : m.meet net store n (.accumulate feed fold having) h left = m') :
    Sound net store x m' ∧ Moves net (.at n left) (.at n left) m m' ∧
    (m'.about n left).Lists h := by
  have hs := S.settled hn hl hidle
  rw [hkind] at hs
  obtain ⟨acc, output, marked, result, hr, hc, hf, hp, -⟩ := hs
  have hacc : (m.node n).accumulators[left]? = some acc := congrArg LeftRecord.accumulator hr
  simp only [Matching.meet, hacc] at hm'
  obtain ⟨S₁, hw, habout⟩ := (S.mono (x.le_hold n left)).contribute ⟨node, hn, hl⟩
    (Or.inr ⟨rfl, rfl⟩) hun hr (contribution store fold h) rfl
  have hp₁ := hp
  rw [← Matching.made_congr hw.tokens] at hp₁
  have hl₁ := hl
  rw [← Matching.liveAt_congr hw.tokens] at hl₁
  obtain ⟨S', M, output', marked', result', habout', hp', hagree⟩ := S₁.refresh W
    (K.of_alphas hw.alphas) hx.hold hn hkind hl₁ (Or.inr ⟨rfl, rfl⟩) habout hp₁ hm'
  have M' := (hw.moves S.forest Or.inl id).trans M
  refine ⟨S'.release_one fun {node'} hn' hl' => ?_, M', ?_⟩
  · obtain rfl := Option.some.inj (hn.symm.trans hn')
    have hkept := (M'.keeps_at W S.forest S'.forest hn hl).2
    rw [hkept] at hagree
    rw [hkind, M'.members, hkept, habout']
    refine ⟨_, output', marked', result', rfl, (hc.insert hm ha).congr fun i => ?_, ?_, hp', hagree⟩
    · exact Accumulator.contains_add.symm
    · refine ⟨(Accumulator.fold_add _ _ _).trans hf.same_fold, hf.regular.add _ _,
        fun {i v} hv => ?_⟩
      rw [Accumulator.contributions_add] at hv
      split at hv
      · next heq => exact heq ▸ (Option.some.inj hv).symm
      · exact hf.contributions hv
  · rw [habout', LeftRecord.lists_accumulator, Accumulator.contains_add]
    exact Or.inl rfl

/-- A fact goes with a left token, and its node is told. -/
theorem Sound.meet (hf : node.kind.feed? = some feed)
    (htwice : node.kind.isJoin = true → x.twice n left h ∨ ∀ t, ¬ m.Made n left t (.fact h))
    {m' : Matching} (hm' : m.meet net store n node.kind h left = m') :
    Sound net store x m' ∧ Moves net (.at n left) (.at n left) m m' ∧
    node.kind.Goes (m'.about n left) (m'.Made n left) h := by
  cases hkind : node.kind with
  | join f =>
    rw [hkind] at hf htwice hm'
    cases hf
    exact S.meet_join W K hx hn hl hidle hm ha hkind (htwice rfl) hm'
  | absent f =>
    rw [hkind] at hf hm'
    cases hf
    exact S.meet_absent W hn hl hidle hm ha hun hkind hm'
  | present f =>
    rw [hkind] at hf hm'
    cases hf
    exact S.meet_present W K hx hn hl hidle hm ha hun hkind hm'
  | accumulate f fold having =>
    rw [hkind] at hf hm'
    cases hf
    exact S.meet_accumulate W K hx hn hl hidle hm ha hun hkind hm'
  | predicate p scope =>
    rw [hkind] at hf
    cases hf

end

/-! ## All left tokens of a node -/

/-- The spots of some left tokens of a node. -/
def Spots.each (n : NodeId) (lefts : List TokenId) : Spots :=
  fun n' left => n' = n ∧ left ∈ lefts

/-- All spots of a node. -/
def Spots.node (n : NodeId) : Spots := fun n' _ => n' = n

section
variable {net : Network} {store : WorkingMemory} {x : Ledger} {m : Matching} {n : NodeId}
  {node : BetaNode} {h : Handle} {feed : Feed} (W : net.WellFormed)
include W

/-- The left tokens that a fact goes with, as their node finds them. -/
theorem Sound.mem_lefts (S : Sound net store x m) (hn : net.node? n = some node)
    (hf : node.kind.feed? = some feed) (hidle : ∀ left, ¬ x.busy n left) {left : TokenId} :
    left ∈ (m.leftCandidates store n feed h).filter (fun left => m.passes store feed.tests left h) ↔
      m.LiveAt left node.parent ∧ (m.matchOf left).accepts store feed h = true := by
  have hscan : feed.index = none →
      (left ∈ m.leftCandidates store n feed h ↔ (m.about n left).arrived = true) := fun hi => by
    rw [Matching.leftCandidates, hi]
    exact Std.ExtTreeSet.mem_toList.trans Std.ExtTreeSet.contains_iff_mem.symm
  have hfind : ∀ index, feed.index = some index → (left ∈ m.leftCandidates store n feed h ↔
      ∃ k, (m.about n left).key = some k ∧
        (k == (store.valueOf h index.field).indexKey) = true) := fun index hi => by
    rw [Matching.leftCandidates, hi]
    exact Std.ExtTreeSet.mem_toList.trans (S.nodes n).keyed
  by_cases hl : m.LiveAt left node.parent
  · obtain ⟨harrived, hkey⟩ := (S.settled hn hl (hidle left)).filed hf
    obtain ⟨o, ho, hnode⟩ := hl
    have hlive : m.LiveAt left node.parent := ⟨o, ho, hnode⟩
    rw [List.mem_filter, Matching.passes, Match.accepts, Matching.view_eq W S.forest ho,
      and_iff_right hlive, Bool.and_eq_true]
    cases hi : feed.index with
    | none =>
      rw [hscan hi, harrived]
      exact (and_iff_right rfl).trans (and_iff_left rfl).symm
    | some index =>
      rw [hfind index hi, hkey, Match.keyFor, hi]
      simp only [Option.map_some, Option.some.injEq, exists_eq_left']
      rw [BEq.comm]
      exact and_comm
  · refine iff_of_false (fun hin => ?_) fun h => hl h.1
    have hblank : m.about n left = .blank := S.blank fun hof => by
      obtain ⟨node', hn', hl'⟩ := hof
      exact hl (Option.some.inj (hn.symm.trans hn') ▸ hl')
    have hcandidate := (List.mem_filter.1 hin).1
    cases hi : feed.index with
    | none =>
      rw [hscan hi, hblank] at hcandidate
      cases hcandidate
    | some index =>
      rw [hfind index hi, hblank] at hcandidate
      obtain ⟨k, hk, -⟩ := hcandidate
      cases hk

/-- A fact goes with some left tokens of a node, and the node is told for each of them. -/
theorem Sound.meetAll {lefts : List TokenId} (hnodup : lefts.Nodup) (S : Sound net store x m)
    (K : Stocked net store m) (hx : x.Calm net n) (hun : ¬ x.unlisted n h)
    (hn : net.node? n = some node) (hf : node.kind.feed? = some feed)
    (hidle : ∀ left, ¬ x.busy n left) (hm : h ∈ m.members feed.alpha)
    (hall : ∀ left ∈ lefts, m.LiveAt left node.parent ∧
      (m.matchOf left).accepts store feed h = true)
    (htwice : node.kind.isJoin = true →
      ∀ left ∈ lefts, x.twice n left h ∨ ∀ t, ¬ m.Made n left t (.fact h)) {m' : Matching}
    (hm' : lefts.foldl (Matching.meet net store n node.kind h) m = m') :
    Sound net store x m' ∧ Moves net (.each n lefts) (.each n lefts) m m' ∧
    ∀ left ∈ lefts, node.kind.Goes (m'.about n left) (m'.Made n left) h := by
  induction lefts generalizing m with
  | nil =>
    subst hm'
    exact ⟨S, .refl S.forest id, fun _ hleft => absurd hleft List.not_mem_nil⟩
  | cons left rest ih =>
    obtain ⟨hleft, hrest⟩ := List.nodup_cons.1 hnodup
    obtain ⟨hl, ha⟩ := hall left List.mem_cons_self
    obtain ⟨S₁, M, hg⟩ := S.meet W K hx hn hl (hidle left) hm ha hun hf
      (fun hjoin => htwice hjoin left List.mem_cons_self) rfl
    rw [List.foldl_cons] at hm'
    generalize m.meet net store n node.kind h left = m₁ at hm' S₁ M hg
    have hkept := fun {l} (hl : m.LiveAt l node.parent) => M.keeps_at W S.forest S₁.forest hn hl
    have hold := fun {l} (hl : m.LiveAt l node.parent) => S.forest.lt_next hl.choose_spec.1
    obtain ⟨S', M', hgoes⟩ := ih hrest S₁ (K.of_alphas M.alphas) (M.members ▸ hm)
      (fun l hlmem => by
        obtain ⟨hl', ha'⟩ := hall l (List.mem_cons_of_mem left hlmem)
        rw [(hkept hl').2]
        exact ⟨(hkept hl').1, ha'⟩)
      (fun hjoin l hlmem => by
        refine (htwice hjoin l (List.mem_cons_of_mem left hlmem)).imp_right fun hno t hmade => ?_
        have hapart : ¬ net.Touches (.at n left) n l :=
          W.not_touches (fun h => h.1) fun h => hleft (h.2 ▸ hlmem)
        exact hno t ((M.made_iff hapart (hold (hall l (List.mem_cons_of_mem left hlmem)).1)).1 hmade))
      hm'
    refine ⟨S', (M.mono ?_ ?_ id).trans (M'.mono ?_ ?_ id), fun l hlmem => ?_⟩
    · rintro n' l ⟨rfl, rfl⟩
      exact Or.inl ⟨rfl, List.mem_cons_self⟩
    · rintro n' l ⟨rfl, rfl⟩
      exact Or.inl ⟨rfl, List.mem_cons_self⟩
    · exact fun h => Or.inl ⟨h.1, List.mem_cons_of_mem left h.2⟩
    · exact fun h => Or.inl ⟨h.1, List.mem_cons_of_mem left h.2⟩
    · rcases List.mem_cons.1 hlmem with rfl | hlmem
      · have hapart : ¬ net.Touches (.each n rest) n l :=
          W.not_touches (fun h => h.1) fun h => hleft h.2
        have hlt : l < m₁.nextToken := Nat.lt_of_lt_of_le (hold hl) M.next
        have hmade : m'.Made n l = m₁.Made n l := by
          funext t e
          exact propext (M'.made_iff hapart hlt)
        rw [M'.record hapart hlt, hmade]
        exact hg
      · exact hgoes l hlmem

/-- After a node has been told of a fact that has come to its memory, it is no longer late. -/
theorem Sound.assertRight (S : Sound net store x m) (K : Stocked net store m) (hx : x.Calm net n)
    (hun : ¬ x.unlisted n h) (hn : net.node? n = some node) (hf : node.kind.feed? = some feed)
    (hidle : ∀ left, ¬ x.busy n left) (hm : h ∈ m.members feed.alpha)
    (htwice : node.kind.isJoin = true →
      ∀ left, x.twice n left h ∨ ∀ t, ¬ m.Made n left t (.fact h)) {m' : Matching}
    (hm' : m.assertRight net store h n = m') :
    Sound net store (x.tell (· = n) h) m' ∧ Moves net (.node n) (.node n) m m' := by
  simp only [Matching.assertRight, Network.kind?_eq hn, hf] at hm'
  have hmem : ∀ {left}, left ∈ (m.leftCandidates store n feed h).filter
      (fun left => m.passes store feed.tests left h) ↔
        m.LiveAt left node.parent ∧ (m.matchOf left).accepts store feed h = true :=
    S.mem_lefts W hn hf hidle
  have hnodup : ((m.leftCandidates store n feed h).filter
      fun left => m.passes store feed.tests left h).Nodup := by
    refine List.Pairwise.filter _ ?_
    unfold Matching.leftCandidates
    split
    · exact IdSet.nodup_toList _
    · exact IdSet.nodup_toList _
  obtain ⟨S', M, hgoes⟩ := Sound.meetAll W hnodup S K hx hun hn hf hidle hm (fun _ => hmem.1)
    (fun hjoin left _ => htwice hjoin left) hm'
  refine ⟨S'.tell fun {n' node' left feed'} heq hn' hl hb hf' => ?_, M.mono ?_ ?_ id⟩
  · subst heq
    obtain rfl := Option.some.inj (hn.symm.trans hn')
    obtain rfl := Option.some.inj (hf.symm.trans hf')
    have hl₀ : m.LiveAt left node.parent := M.left_of W S.forest S'.forest (fun h => h.1) hn hl
    have hkept := M.keeps_left W S.forest S'.forest (fun h => h.1) hn hl₀
    rw [M.members, hkept.2]
    constructor
    · intro hg
      have hc := ((S'.settled hn hl hb).covers hf h).1 hg
      rw [M.members, hkept.2] at hc
      exact hc.resolve_right fun hno => hno.2 hm
    · exact fun ha => hgoes left (hmem.2 ⟨hl₀, ha.2⟩)
  · exact fun h => Or.inl h.1
  · exact fun h => Or.inl h.1

end

end RuleNet
