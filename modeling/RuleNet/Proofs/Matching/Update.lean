/-
  Updates: while one goes on results are only marked, and in the end those that differ are made anew.

  * `Kept.beginUpdate`: from here on results are marked.
  * `Sound.settleEach`: marked results are looked at one after the other.
  * `Kept.endUpdate`: when all have been looked at, nothing is amiss.
-/
import RuleNet.Proofs.Matching.Rest
import RuleNet.Proofs.Matching.Results

namespace RuleNet

open Matching (Extension)

namespace Ledger

/-- Which results have yet to be looked at matters at accumulators only. -/
theorem Settled.freshen {x : Ledger} {stale : NodeId → TokenId → Prop} {store : WorkingMemory}
    {members : AlphaId → IdSet} {n : NodeId} {left : TokenId} {μ : Match} {r : LeftRecord}
    {made : TokenId → Extension → Prop} {kind : NodeKind}
    (hs : x.Settled store members n left μ r made kind)
    (h : ∀ feed fold having, kind = .accumulate feed fold having → x.stale n left → stale n left) :
    { x with stale }.Settled store members n left μ r made kind := by
  cases kind with
  | accumulate feed fold having =>
    obtain ⟨acc, output, marked, result, hr, hc, hf, hp, hagree⟩ := hs
    exact ⟨acc, output, marked, result, hr, hc, hf, hp,
      hagree.imp_right fun ha => ha.imp_left (h feed fold having rfl)⟩
  | _ => exact hs

end Ledger

section
variable {net : Network} {store : WorkingMemory} {x : Ledger} {m m' : Matching}

/-- Results that are not those of live left tokens of accumulators need not be looked at. -/
theorem Sound.freshen {stale : NodeId → TokenId → Prop} (S : Sound net store x m)
    (h : ∀ {n node left}, net.node? n = some node → m.LiveAt left node.parent → ¬ x.busy n left →
      ∀ feed fold having, node.kind = .accumulate feed fold having → x.stale n left →
        stale n left) : Sound net store { x with stale } m where
  toChained := S.toChained.relabel rfl rfl
  blank := S.blank
  nodes := S.nodes
  settled hn hl hb := (S.settled hn hl hb).freshen (h hn hl hb)

/-! ## Beginning -/

/-- While an update begins, nothing that nodes hold changes. -/
theorem Matching.about_beginUpdate (m : Matching) : m.beginUpdate.about = m.about := by
  have hmark : ∀ n left, m.beginUpdate.isMarked n left = m.isMarked n left := by
    intro n left
    cases hd : m.deferred with
    | none => simp [Matching.isMarked, Matching.beginUpdate, hd]
    | some dirty => simp [Matching.isMarked, Matching.beginUpdate, hd]
  funext n left
  rw [Matching.about, hmark]
  rfl

theorem Kept.beginUpdate (k : Kept net store x m) : Kept net store x m.beginUpdate := by
  have habout := m.about_beginUpdate
  have hmatch : m.beginUpdate.matchOf = m.matchOf := Matching.matchOf_congr rfl
  refine ⟨⟨⟨k.sound.forest.congr rfl rfl, k.sound.carries, k.sound.filed, k.sound.told⟩,
    ⟨fun hno => ?_, k.sound.nodes⟩, fun hn hl hb => ?_⟩, k.stocked.of_alphas rfl,
    k.housed.congr rfl rfl⟩
  · rw [habout]
    exact k.sound.blank hno
  · rw [habout, hmatch]
    exact k.sound.settled hn hl hb

/-! ## Ending -/

/-- When results are no longer marked, those that were have yet to be looked at. -/
theorem Kept.unmark (k : Kept net store x m) {dirty : Std.ExtTreeSet (NodeId × TokenId) dictionary}
    (hd : m.deferred = some dirty) :
    Kept net store { x with stale := fun n left => x.stale n left ∨ (n, left) ∈ dirty.toList }
      { m with deferred := none } := by
  have habout : ∀ n left, Matching.about { m with deferred := none } n left =
      { m.about n left with marked := false } := fun n left => rfl
  have hmarked : ∀ n left, (m.about n left).marked = true → (n, left) ∈ dirty.toList := by
    intro n left hmark
    have hc : dirty.contains (n, left) = true := by
      have : m.isMarked n left = true := hmark
      rwa [Matching.isMarked, hd, Option.any_some] at this
    exact Std.ExtTreeSet.mem_toList.2 (Std.ExtTreeSet.contains_iff_mem.1 hc)
  have hmatch : Matching.matchOf { m with deferred := none } = m.matchOf := Matching.matchOf_congr rfl
  refine ⟨⟨⟨k.sound.forest.congr rfl rfl, k.sound.carries, k.sound.filed, k.sound.told⟩,
    ⟨fun hno => ?_, k.sound.nodes⟩, fun {n node left} hn hl hb => ?_⟩, k.stocked.of_alphas rfl,
    k.housed.congr rfl rfl⟩
  · rw [habout, k.sound.blank hno]
    rfl
  · rw [habout, hmatch]
    have hs := k.sound.settled hn hl hb
    have hmark := hmarked n left
    generalize m.about n left = r at hs hmark
    cases hk : node.kind with
    | accumulate feed fold having =>
      rw [hk] at hs
      obtain ⟨acc, output, marked, result, rfl, hc, hf, hp, hagree⟩ := hs
      refine ⟨acc, output, false, result, rfl, hc, hf, hp, Or.inr ?_⟩
      rcases hagree with hm | hstale | hagree
      · exact Or.inl (Or.inr (hmark hm))
      · exact Or.inl (Or.inl hstale)
      · exact Or.inr hagree
    | join feed =>
      rw [hk] at hs
      obtain ⟨rfl, hc, htwice⟩ := hs
      exact ⟨rfl, hc, htwice⟩
    | absent feed =>
      rw [hk] at hs
      obtain ⟨facts, output, rfl, hc, hp⟩ := hs
      exact ⟨facts, output, rfl, hc, hp⟩
    | present feed =>
      rw [hk] at hs
      obtain ⟨facts, output, rfl, hc, hp⟩ := hs
      exact ⟨facts, output, rfl, hc, hp⟩
    | predicate p scope =>
      rw [hk] at hs
      obtain ⟨output, rfl, hp⟩ := hs
      exact ⟨output, rfl, hp⟩

/-- There is nothing to look at but results of live left tokens. -/
theorem Sound.settle_nothing (S : Sound net store x m) {n : NodeId} {left : TokenId}
    (hno : ¬ ∃ node feed fold having, net.node? n = some node ∧
      node.kind = .accumulate feed fold having ∧ m.LiveAt left node.parent) :
    m.settle net store n left = m := by
  unfold Matching.settle
  split
  · next hk ha =>
    obtain ⟨node, hn, hkind⟩ := Network.kind?_eq_some.1 hk
    refine absurd ⟨node, _, _, _, hn, hkind, ?_⟩ hno
    refine Classical.byContradiction fun hdead => ?_
    have hblank : m.about n left = .blank := S.blank fun ⟨node', hn', hl'⟩ =>
      hdead (Option.some.inj (hn.symm.trans hn') ▸ hl')
    have hacc : (m.node n).accumulators[left]? = none := congrArg LeftRecord.accumulator hblank
    rw [hacc] at ha
    cases ha
  · rfl

variable (W : net.WellFormed)
include W

/-- A result is looked at, if it is one. -/
theorem Sound.settleOne (S : Sound net store x m) (K : Stocked net store m) (hx : x.Quiet)
    (hclose : ∀ a b : Option Value, (a == b) = true → x.agree a b) {n : NodeId} {left : TokenId}
    (hm' : m.settle net store n left = m') :
    Sound net store
      { x with stale := fun n' left' => x.stale n' left' ∧ ¬ (n' = n ∧ left' = left) } m' ∧
    Moves net .all .all m m' := by
  by_cases hres : ∃ node feed fold having, net.node? n = some node ∧
      node.kind = .accumulate feed fold having ∧ m.LiveAt left node.parent
  · obtain ⟨node, feed, fold, having, hn, hkind, hl⟩ := hres
    have hs := S.settled hn hl (hx.idle n left)
    rw [hkind] at hs
    obtain ⟨acc, output, marked, old, habout, hc, hf, hp, -⟩ := hs
    have Sh := S.mono (x.le_hold n left)
    obtain ⟨S', M, output', result, habout', hp', hagree⟩ := Sh.settle W K
      ⟨hx.filed, fun {c h} _ => hx.listed c h, hx.agree⟩ hclose hn hkind hl (Or.inr ⟨rfl, rfl⟩)
      habout hp hm'
    have hkept := M.keeps_at W S.forest S'.forest hn hl
    refine ⟨?_, M.mono (fun _ => Or.inl trivial) (fun _ => Or.inl trivial) fun _ => trivial⟩
    -- the node has done what its kind asks, and all other results are as they were
    have S'' : Sound net store { x.hold n left with
        stale := fun n' left' => x.stale n' left' ∧ ¬ (n' = n ∧ left' = left) } m' :=
      S'.freshen fun _ _ hb _ _ _ _ hstale => ⟨hstale, fun e => hb (Or.inr e)⟩
    refine Sound.release_one S'' fun {node'} hn' hl' => ?_
    obtain rfl := Option.some.inj (hn.symm.trans hn')
    rw [hkind, hkept.2, M.members]
    rw [hkept.2] at hagree
    exact ⟨acc, output', marked, result, habout', hc, hf, hp', Or.inr (Or.inr hagree)⟩
  · rw [S.settle_nothing hres] at hm'
    subst hm'
    refine ⟨S.freshen fun {n' node' left'} hn hl _ feed fold having hkind hstale => ⟨hstale, ?_⟩,
      .refl S.forest id⟩
    rintro ⟨rfl, rfl⟩
    exact hres ⟨node', feed, fold, having, hn, hkind, hl⟩

/-- Results are looked at one after the other. -/
theorem Sound.settleEach {results : List (NodeId × TokenId)} (S : Sound net store x m)
    (K : Stocked net store m) (hx : x.Quiet)
    (hclose : ∀ a b : Option Value, (a == b) = true → x.agree a b)
    (hm' : results.foldl (fun m result => m.settle net store result.1 result.2) m = m') :
    Sound net store { x with stale := fun n left => x.stale n left ∧ (n, left) ∉ results } m' ∧
    Moves net .all .all m m' := by
  induction results generalizing m x with
  | nil =>
    subst hm'
    exact ⟨S.freshen fun _ _ _ _ _ _ _ hstale => ⟨hstale, List.not_mem_nil⟩, .refl S.forest id⟩
  | cons r rest ih =>
    obtain ⟨n, left⟩ := r
    obtain ⟨S₁, M⟩ := S.settleOne W K hx hclose (rfl : m.settle net store n left = _)
    obtain ⟨S', M'⟩ := ih S₁ (K.of_alphas M.alphas) ⟨hx.filed, hx.listed, hx.idle, hx.agree⟩ hclose hm'
    refine ⟨S'.freshen fun _ _ _ _ _ _ _ hstale => ⟨hstale.1.1, ?_⟩, M.trans M'⟩
    rw [List.mem_cons, not_or, Prod.mk.injEq]
    exact ⟨hstale.1.2, hstale.2⟩

/-- When all marked results have been looked at, the update is over. -/
theorem Kept.endUpdate (k : Kept net store x m) (hx : x.Quiet) (hstale : ∀ n left, ¬ x.stale n left)
    (hclose : ∀ a b : Option Value, (a == b) = true → x.agree a b)
    (hm' : m.endUpdate net store = m') :
    Kept net store x m' ∧ m'.deferred = none ∧ Evolves net .all m m' := by
  cases hd : m.deferred with
  | none =>
    simp only [Matching.endUpdate, hd] at hm'
    subst hm'
    exact ⟨k, hd, .refl k.sound.forest⟩
  | some dirty =>
    simp only [Matching.endUpdate, hd] at hm'
    have k₁ := k.unmark hd
    obtain ⟨S', M⟩ := k₁.sound.settleEach W k₁.stocked ⟨hx.filed, hx.listed, hx.idle, hx.agree⟩
      hclose hm'
    refine ⟨⟨?_, k₁.stocked.of_alphas M.alphas, k₁.housed.congr M.members M.memoriesOf⟩,
      Option.isNone_iff_eq_none.1 (Option.isSome_eq_false_iff.1 M.deferring),
      ⟨M.next, M.survive, M.born⟩⟩
    have S'' : Sound net store { x with stale := x.stale } m' :=
      S'.freshen fun _ _ _ _ _ _ _ hs => absurd (hs.1.resolve_left (hstale _ _)) hs.2
    exact S''

end

end RuleNet
