/-
  How nodes turn when a fact leaves or enters.

  * `Matching.Tidy.retractRight`, `Matching.Tidy.assertRight`: a node is told of a fact.
  * `Matching.Tidy.deleteEach`: tokens of a fact go.
  * `Turns`: what a step does at left tokens that stay, joins included.
  * `Kept.turns_retract`, `Kept.turns_expireWindows`, `Kept.turns_assert`: facts leave, or one enters.
-/
import RuleNet.Proofs.Matching.Rest
import RuleNet.Proofs.Matching.Shift

namespace RuleNet

section
variable {net : Network} {store : WorkingMemory} {h : Handle} {I J K : Sites}
  {m m' m'' : Matching} {n : NodeId} {kind : NodeKind}

/-- Facts go in several steps. -/
theorem Spares.lost_trans (hs : Spares net J (Matching.Lost net store) m m')
    (hs' : Spares net K (Matching.Lost net store) m' m'')
    (hJ : ∀ {n left i}, J n left i → I n left i) (hK : ∀ {n left i}, K n left i → I n left i) :
    Spares net I (Matching.Lost net store) m m'' :=
  hs.trans hs' hJ (fun _ => hK) (fun hx hu => hx.after hs'.toLater hu)
    (fun _ hu hy => .inr (hy.before hs.toLater hu)) fun hx hy => hx.trans hy hs.toLater

/-- Spots that are told of a fact one after the other. -/
theorem Spares.gained_trans {P Q : Spots} (hs : Spares net J
      (fun m m' n left => P n left ∧ Matching.Gained net store h m m' n left) m m')
    (hs' : Spares net J
      (fun m m' n left => Q n left ∧ Matching.Gained net store h m m' n left) m' m'')
    (hapart : ∀ {n left}, P n left → ¬ Q n left) : Spares net J
      (fun m m' n left => (P n left ∨ Q n left) ∧ Matching.Gained net store h m m' n left) m m'' :=
  hs.trans hs' id (fun _ => id) (fun hx hu => ⟨.inl hx.1, hx.2.after hs'.toLater hu⟩)
    (fun _ hu hy => .inr ⟨.inr hy.1, hy.2.before hs.toLater hu⟩)
    fun hx hy => absurd hy.1 (hapart hx.1)

/-- No spot is left out. -/
def Spots.nowhere : Matching → Matching → Spots := fun _ _ _ _ => False

/-- A step that is the same to all left tokens. -/
theorem Spares.nowhere {X : Matching → Matching → Spots} (hs : Spares net J Spots.nowhere m m') :
    Spares net J X m m' :=
  hs.mono (fun _ => id) fun _ => False.elim

/-- All sites of a fact at some nodes. -/
def Sites.fact (P : NodeId → Prop) (h : Handle) : Sites := fun n _ i => P n ∧ i = h

namespace Matching

/-- A step that is about neither tokens nor what nodes hold. -/
theorem Tidy.spares_same (T : m.Tidy) (htokens : m'.tokens = m.tokens)
    (hnext : m'.nextToken = m.nextToken) (hdeferred : m'.deferred.isSome = m.deferred.isSome)
    (habout : ∀ n left, m'.about n left = m.about n left) : Spares net J Spots.nowhere m m' where
  toLater := ⟨Nat.le_of_eq hnext.symm, hdeferred, fun _ ho => origin?_congr htokens ▸ ho⟩
  joins ho _ _ _ _ _ _ := by rw [origin?_congr htokens]; exact ho
  born ho hle _ _ _ _ := by
    rw [origin?_congr htokens] at ho
    exact absurd (T.fresh ho) (Nat.not_lt.2 hle)
  held _ {t o n} ho hle _ := by
    rw [origin?_congr htokens] at ho
    exact absurd (T.fresh ho) (Nat.not_lt.2 hle)
  spots {n left} _ _ := .inl ⟨habout n left, fun t _ => by rw [origin?_congr htokens]⟩

theorem Tidy.spares_refl (T : m.Tidy) : Spares net J Spots.nowhere m m :=
  T.spares_same rfl rfl rfl fun _ _ => rfl

/-- Alpha memories do not matter. -/
theorem Tidy.shelves (T : m.Tidy) (hs : Shelves m m') :
    m'.Tidy ∧ Spares net J Spots.nowhere m m' := by
  have habout : ∀ n left, m'.about n left = m.about n left :=
    fun n left => congrFun (congrFun hs.about n) left
  refine ⟨⟨?_, ?_, ?_, ?_⟩, T.spares_same hs.tokens hs.nextToken (by rw [hs.deferred]) habout⟩
  · rw [origin?_congr hs.tokens, hs.nextToken]
    exact T.fresh
  · rw [hs.tokens, hs.nextToken, origin?_congr hs.tokens]
    exact T.child
  · intro n left t ho
    rw [habout] at ho
    rw [hs.nextToken, origin?_congr hs.tokens]
    exact T.output ho
  · rw [hs.tokensByFact, hs.nextToken, origin?_congr hs.tokens]
    exact T.filed

/-! ## Tokens -/

/-- Tokens of a fact go. -/
theorem Tidy.deleteEach {P : NodeId → Prop} {ts : List TokenId} (T : m.Tidy)
    (hts : ∀ t ∈ ts, ∀ o, m.origin? t = some o → o.step.handle = some h ∧
      ∀ n, o.node = some n → P n)
    (hm' : ts.foldl (fun m t => m.delete net t) m = m') :
    m'.Tidy ∧ Spares net (.fact P h) Spots.nowhere m m' := by
  induction ts generalizing m with
  | nil => exact hm' ▸ ⟨T, T.spares_refl⟩
  | cons t rest ih =>
    have D : Spares net (.fact P h) Spots.nowhere m (m.delete net t) :=
      (T.spares_delete t).mono
        (by
          rintro n left i - ⟨o, ho, hn, -, hi⟩
          obtain ⟨hh, hp⟩ := hts t List.mem_cons_self o ho
          exact ⟨hp n hn, Option.some.inj (hi.symm.trans hh)⟩)
        (by
          rintro n left - ⟨hout, o, ho⟩
          have hh := (hts t List.mem_cons_self o ho).1
          rw [((T.output hout).2 o ho).2.2] at hh
          cases hh)
    obtain ⟨T', D'⟩ := ih (T.delete t) (fun s hs o ho =>
      hts s (List.mem_cons_of_mem t hs) o ((m.drops_delete t).before ho).1) hm'
    exact ⟨T', D.trans D' id (fun _ => id) (fun h _ => h) (fun _ _ h => .inr h) fun h _ => h⟩

/-! ## Nodes -/

variable (W : net.WellFormed)
include W

/-- A fact no longer goes with some left tokens of a node. -/
theorem Tidy.partEach {lefts : List TokenId} (T : m.Tidy) (hk : net.kind? n = some kind)
    (hm' : lefts.foldl (Matching.part net store n kind h) m = m') :
    m'.Tidy ∧ Spares net .none (Lost net store) m m' := by
  induction lefts generalizing m with
  | nil => exact hm' ▸ ⟨T, T.spares_refl.nowhere⟩
  | cons left rest ih =>
    obtain ⟨T₁, D⟩ := @Tidy.part net store h m _ n left kind W T hk rfl
    obtain ⟨T', D'⟩ := ih T₁ hm'
    exact ⟨T', (D.mono (fun _ => id) fun _ hx => hx.2).lost_trans D' id id⟩

/-- A node is told that a fact has left. -/
theorem Tidy.retractRight (T : m.Tidy) (hm' : m.retractRight net store h n = m') :
    m'.Tidy ∧ Spares net .none (Lost net store) m m' := by
  cases hk : net.kind? n with
  | none =>
    simp only [Matching.retractRight, hk] at hm'
    exact hm' ▸ ⟨T, T.spares_refl.nowhere⟩
  | some kind =>
    simp only [Matching.retractRight, hk] at hm'
    have hw := writes_unlist m n h
    generalize m.setNode n { m.node n with foundBy := (m.node n).foundBy.erase h } = m₁ at hm' hw
    have T₁ : m₁.Tidy := hw.tidy T fun {n' left t} ho => by
      rw [hw.others id] at ho
      exact ho
    obtain ⟨T', D⟩ := T₁.partEach W hk hm'
    have D₁ : Spares net .none (Lost net store) m m₁ :=
      (hw.spares T).mono (fun _ => id) fun _ h => h.elim
    exact ⟨T', D₁.lost_trans D id id⟩

/-- Nodes are told that a fact has left. -/
theorem Tidy.retractEach {ns : List NodeId} (T : m.Tidy)
    (hm' : ns.foldl (Matching.retractRight net store h) m = m') :
    m'.Tidy ∧ Spares net .none (Lost net store) m m' := by
  induction ns generalizing m with
  | nil => exact hm' ▸ ⟨T, T.spares_refl.nowhere⟩
  | cons n rest ih =>
    obtain ⟨T₁, D⟩ := @Tidy.retractRight net store h m _ n W T rfl
    obtain ⟨T', D'⟩ := ih T₁ hm'
    exact ⟨T', D.lost_trans D' id id⟩

/-- A fact goes with some left tokens of a node. -/
theorem Tidy.meetEach {lefts : List TokenId} (T : m.Tidy) (hk : net.kind? n = some kind)
    (hnodup : lefts.Nodup) (hm' : lefts.foldl (Matching.meet net store n kind h) m = m') :
    m'.Tidy ∧ Spares net (.fact (· = n) h)
      (fun m m' n' left => (n' = n ∧ left ∈ lefts) ∧ Gained net store h m m' n' left) m m' := by
  induction lefts generalizing m with
  | nil => exact hm' ▸ ⟨T, T.spares_refl.nowhere⟩
  | cons left rest ih =>
    obtain ⟨hleft, hrest⟩ := List.nodup_cons.1 hnodup
    obtain ⟨T₁, D⟩ := @Tidy.meet net store h m _ n left kind W T hk rfl
    obtain ⟨T', D'⟩ := ih T₁ hrest hm'
    have D₁ := (D.mono (K := .fact (· = n) h) (fun _ hj => ⟨hj.1, (Option.some.inj hj.2.2).symm⟩)
      fun _ hx => hx).gained_trans D' fun hp hq => hleft (hp.2 ▸ hq.2)
    refine ⟨T', D₁.mono (fun _ => id) fun _ hx => ⟨?_, hx.2⟩⟩
    rcases hx.1 with ⟨rfl, rfl⟩ | ⟨rfl, hin⟩
    · exact ⟨rfl, List.mem_cons_self⟩
    · exact ⟨rfl, List.mem_cons_of_mem left hin⟩

/-- A node is told that a fact has come. -/
theorem Tidy.assertRight (T : m.Tidy) (hm' : m.assertRight net store h n = m') :
    m'.Tidy ∧ Spares net (.fact (· = n) h)
      (fun m m' n' left => n' = n ∧ Gained net store h m m' n' left) m m' := by
  cases hk : net.kind? n with
  | none =>
    simp only [Matching.assertRight, hk] at hm'
    exact hm' ▸ ⟨T, T.spares_refl.nowhere⟩
  | some kind =>
    cases hf : kind.feed? with
    | none =>
      simp only [Matching.assertRight, hk, hf] at hm'
      exact hm' ▸ ⟨T, T.spares_refl.nowhere⟩
    | some feed =>
      simp only [Matching.assertRight, hk, hf] at hm'
      have hnodup : (m.leftCandidates store n feed h).Nodup := by
        unfold leftCandidates
        split
        · exact IdSet.nodup_toList _
        · exact IdSet.nodup_toList _
      obtain ⟨T', D⟩ := T.meetEach W hk (List.Pairwise.filter _ hnodup) hm'
      exact ⟨T', D.mono (fun _ => id) fun _ hx => ⟨hx.1.1, hx.2⟩⟩

/-- Nodes are told that a fact has come. -/
theorem Tidy.assertEach {ns : List NodeId} (T : m.Tidy) (hnodup : ns.Nodup)
    (hm' : ns.foldl (Matching.assertRight net store h) m = m') :
    m'.Tidy ∧ Spares net (.fact (fun _ => True) h)
      (fun m m' n left => n ∈ ns ∧ Gained net store h m m' n left) m m' := by
  induction ns generalizing m with
  | nil => exact hm' ▸ ⟨T, T.spares_refl.nowhere⟩
  | cons n rest ih =>
    obtain ⟨hn, hrest⟩ := List.nodup_cons.1 hnodup
    obtain ⟨T₁, D⟩ := @Tidy.assertRight net store h m _ n W T rfl
    obtain ⟨T', D'⟩ := ih T₁ hrest hm'
    have D₁ := (D.mono (K := .fact (fun _ => True) h) (fun _ hj => ⟨trivial, hj.2⟩)
      fun _ hx => hx).gained_trans D' fun hp hq => hn (hp ▸ hq)
    exact ⟨T', D₁.mono (fun _ => id) fun _ hx => ⟨List.mem_cons.2 hx.1, hx.2⟩⟩

/-- A fact leaves one memory. -/
theorem Tidy.evict {a : AlphaId} (T : m.Tidy) (hm' : m.evict net store a h = m') :
    m'.Tidy ∧ Spares net (.fact (net.Feeds a) h) (Lost net store) m m' := by
  cases hf : store.fact? h with
  | none =>
    simp only [Matching.evict, hf] at hm'
    exact hm' ▸ ⟨T, T.spares_refl.nowhere⟩
  | some fact =>
    simp only [Matching.evict, hf] at hm'
    obtain ⟨T₁, D₁⟩ := @Tidy.shelves net (.fact (net.Feeds a) h) _ _ T
      (m.shelves_unshelve a h fact)
    change (watchers net a).foldl (Matching.retractRight net store h)
      ((((m.unshelve a h fact).tokensByFact.get h).toList.filter fun t =>
        (((m.unshelve a h fact).tokens[t]?).bind Token.node).any fun n =>
          (net.kind? n).any fun kind => kind.alpha? == some a).foldl
        (fun m t => m.delete net t) (m.unshelve a h fact)) = m' at hm'
    generalize m.unshelve a h fact = m₁ at hm' T₁ D₁
    obtain ⟨m₂, hm₂⟩ : ∃ m₂, ((m₁.tokensByFact.get h).toList.filter fun t =>
        ((m₁.tokens[t]?).bind Token.node).any fun n =>
          (net.kind? n).any fun kind => kind.alpha? == some a).foldl
        (fun m t => m.delete net t) m₁ = m₂ := ⟨_, rfl⟩
    rw [hm₂] at hm'
    obtain ⟨T₂, D₂⟩ := T₁.deleteEach (h := h) (P := net.Feeds a) (fun t ht o ho => by
      obtain ⟨hfiled, hnode⟩ := List.mem_filter.1 ht
      refine ⟨(T₁.filed (Std.ExtTreeSet.mem_toList.1 hfiled)).2 o ho, fun n hn => ?_⟩
      obtain ⟨token, htoken, rfl⟩ := origin?_eq_some.1 ho
      rw [htoken, Option.bind_some, show token.node = some n from hn, Option.any_some] at hnode
      cases hk : net.kind? n with
      | none =>
        rw [hk] at hnode
        cases hnode
      | some kind =>
        rw [hk, Option.any_some, beq_iff_eq] at hnode
        obtain ⟨feed, hfeed, ha⟩ := Option.map_eq_some_iff.1 hnode
        exact ⟨kind, feed, hk, hfeed, ha⟩) hm₂
    obtain ⟨T', D'⟩ := T₂.retractEach W hm'
    exact ⟨T', (D₁.nowhere.lost_trans D₂.nowhere id id).lost_trans D' id False.elim⟩

end Matching

end

/-! ## Facts -/

/-- The sites of facts that are not in the memory of a join both before and after a step. -/
def Matching.Passing (net : Network) (m m' : Matching) : Sites := fun n _ i =>
  ∀ feed, net.kind? n = some (.join feed) →
    ¬ (i ∈ m.members feed.alpha ∧ i ∈ m'.members feed.alpha)

/-- A step by which facts leave or enter memories: joins lose and make only tokens of these, and
    other nodes turn where others go with their left tokens. -/
def Turns (net : Network) (store : WorkingMemory) (m m' : Matching) : Prop :=
  Spares net (m.Passing net m') (Matching.Shifted net store) m m'

section
variable {net : Network} {store : WorkingMemory} {x : Ledger} {h : Handle} {m m' : Matching}

/-- A settled node knows the facts that go with a left token. -/
theorem Ledger.Settled.covers_knows {members : AlphaId → IdSet} {n : NodeId} {left : TokenId}
    {μ : Match} {r : LeftRecord} {made : TokenId → Matching.Extension → Prop} {kind : NodeKind}
    {feed : Feed} (hs : x.Settled store members n left μ r made kind) (hf : kind.feed? = some feed)
    (hjoin : kind.isJoin = false) :
    x.Covers n store (members feed.alpha) μ feed (kind.Knows r) := by
  cases kind with
  | join f => cases hjoin
  | absent f =>
    cases hf
    obtain ⟨facts, output, rfl, hc, -⟩ := hs
    exact hc.congr fun i => ⟨fun hi => ⟨facts, rfl, hi⟩, fun ⟨_, h, hi⟩ => Option.some.inj h ▸ hi⟩
  | present f =>
    cases hf
    obtain ⟨facts, output, rfl, hc, -⟩ := hs
    exact hc.congr fun i => ⟨fun hi => ⟨facts, rfl, hi⟩, fun ⟨_, h, hi⟩ => Option.some.inj h ▸ hi⟩
  | accumulate f fold having =>
    cases hf
    obtain ⟨acc, output, marked, result, rfl, hc, -⟩ := hs
    exact hc.congr fun i => ⟨fun hi => ⟨acc, rfl, hi⟩, fun ⟨_, h, hi⟩ => Option.some.inj h ▸ hi⟩
  | predicate p scope => cases hf

/-- Nodes know nothing of a fact that is in no memory. -/
theorem Kept.not_knows (k : Kept net store x m) (hx : x.Quiet) (hlate : ∀ n i, ¬ x.late n i)
    (habsent : ∀ a, h ∉ m.members a) {n : NodeId} {left : TokenId} {kind : NodeKind}
    (hk : net.kind? n = some kind) : ¬ kind.Knows (m.about n left) h := by
  by_cases hl : m.LeftOf net n left
  · obtain ⟨node, hn, hlive⟩ := hl
    have hs := k.sound.settled hn hlive (hx.idle n left)
    obtain rfl := Option.some.inj ((Network.kind?_eq hn).symm.trans hk)
    intro hknows
    cases hf : node.kind.feed? with
    | none =>
      cases hkind : node.kind with
      | predicate p scope =>
        rw [hkind] at hs hknows
        obtain ⟨output, hr, -⟩ := hs
        obtain ⟨facts, hfound, -⟩ := hknows
        rw [hr] at hfound
        cases hfound
      | _ => rw [hkind] at hf; cases hf
    | some feed =>
      cases hjoin : node.kind.isJoin with
      | true =>
        cases hkind : node.kind with
        | join f =>
          rw [hkind] at hs hknows
          obtain ⟨facts, hfound, -⟩ := hknows
          rw [hs.1] at hfound
          cases hfound
        | _ => rw [hkind] at hjoin; cases hjoin
      | false =>
        rcases (hs.covers_knows hf hjoin h).1 hknows with hin | hl
        · exact habsent feed.alpha hin.1
        · exact hlate n h hl.1
  · rw [k.sound.blank hl]
    cases kind <;> exact fun ⟨_, h, _⟩ => by cases h

variable (W : net.WellFormed)
include W

/-- A fact leaves. -/
theorem Kept.turns_retract (k : Kept net store x m) (hx : x.Quiet) {fact : Fact}
    (hf : store.fact? h = some fact) (hm' : m.retract net store h = m') : Turns net store m m' := by
  have R := k.retract W hx hf hm'
  simp only [Matching.retract, hf] at hm'
  generalize halphas : (m.memoriesOf[h]?).getD [] = alphas at hm'
  obtain ⟨m₁, hm₁⟩ : ∃ m₁, Matching.leaveAll { m with memoriesOf := m.memoriesOf.erase h } alphas h
    fact = m₁ := ⟨_, rfl⟩
  obtain ⟨-, hs, -⟩ := k.leaveAll hf halphas hm₁
  rw [Matching.leaveAll] at hm₁
  rw [hm₁] at hm'
  obtain ⟨T₁, D₁⟩ := @Matching.Tidy.shelves net (.fact (fun _ => True) h) _ _ (k.sound.tidy hx.idle) hs
  obtain ⟨m₂, hm₂⟩ : ∃ m₂, { m₁ with tokensByFact := m₁.tokensByFact.erase h } = m₂ := ⟨_, rfl⟩
  have D₂ : Spares net (.fact (fun _ => True) h) Spots.nowhere m₁ m₂ := by
    subst hm₂
    exact T₁.spares_same rfl rfl rfl fun _ _ => rfl
  have T₂ : m₂.Tidy := by
    subst hm₂
    refine ⟨T₁.fresh, T₁.child, T₁.output, fun {i t} ht => T₁.filed ?_⟩
    rw [Index.get_erase] at ht
    split at ht
    · exact absurd ht Std.ExtTreeSet.not_mem_empty
    · exact ht
  rw [hm₂, ← List.foldl_flatMap] at hm'
  obtain ⟨m₃, hm₃⟩ : ∃ m₃, (m₁.tokensByFact.get h).toList.foldl (fun m t => m.delete net t) m₂ = m₃ :=
    ⟨_, rfl⟩
  rw [hm₃] at hm'
  obtain ⟨T₃, D₃⟩ := T₂.deleteEach (P := fun _ => True) (h := h) (fun t ht o ho => by
    have ho₁ : m₁.origin? t = some o := by
      subst hm₂
      exact ho
    exact ⟨(T₁.filed (Std.ExtTreeSet.mem_toList.1 ht)).2 o ho₁, fun _ _ => trivial⟩) hm₃
  obtain ⟨-, D₄⟩ := T₃.retractEach W hm'
  have D := ((D₁.nowhere.lost_trans D₂.nowhere id id).lost_trans D₃.nowhere id id).lost_trans D₄ id
    False.elim
  refine D.mono (fun _ hj => ?_) fun _ hx => hx.shifted
  rintro feed - ⟨-, hin⟩
  exact (R.members.1 hin).2 hj.2

/-- Facts leave memories, one after the other. -/
theorem Kept.recedes {A : AlphaId → Prop} {entered : List AlphaId}
    (k : Kept net store (x.awaits net entered h m) m) (hx : x.Quiet)
    (e : Evictions net store A m m') :
    m'.Tidy ∧ Spares net (m.Passing net m') (Matching.Lost net store) m m' := by
  induction e with
  | refl =>
    have T := k.sound.tidy (fun n left => hx.idle n left)
    exact ⟨T, T.spares_refl.nowhere⟩
  | @step m₁ a i ha e ih =>
    cases hf : store.fact? i with
    | none =>
      simp only [Matching.evict, hf]
      exact ih
    | some fact =>
      have E := (k.sweep W hx e).kept.evict (a := a) W ⟨hx.filed, hx.listed, hx.idle, hx.agree⟩ hf rfl
      obtain ⟨T', D⟩ := @Matching.Tidy.evict net store i _ _ W a ih.1 rfl
      refine ⟨T', ih.2.lost_trans D (fun hpass feed hk hin => ?_) ?_⟩
      · exact hpass feed hk ⟨hin.1, (E.members.1 hin.2).1⟩
      · rintro n left j ⟨⟨kind, feed', hk', hf', ha⟩, rfl⟩ feed hk hin
        obtain rfl := Option.some.inj (hk.symm.trans hk')
        cases hf'
        exact (E.members.1 hin.2).2 ⟨ha.symm, rfl⟩

/-- Events that are too old leave their windows. -/
theorem Kept.turns_expireWindows (k : Kept net store x m) (hx : x.Quiet)
    (hlate : ∀ n i, ¬ x.late n i) (now : Moment) (hm' : m.expireWindows net store now = m') :
    Turns net store m m' := by
  have k' : Kept net store (x.awaits net [] 0 m) m :=
    ⟨k.sound.mono ⟨rfl, rfl, rfl, id, id, fun hl => absurd hl (hlate _ _), id, id⟩, k.stocked,
      k.housed⟩
  have D := (k'.recedes W hx (Evictions.refl.sweep (Matching.outdated net now)
    (List.range net.alphas.size) (A := fun _ => True) fun _ _ _ _ => trivial)).2
  have heq : (List.range net.alphas.size).foldl
      (fun m a => (m.outdated net now a).foldl (Matching.evict net store a) m) m = m' := hm'
  rw [heq] at D
  exact D.mono (fun _ => id) fun _ hx => hx.shifted

/-- A fact that is in no memory enters. -/
theorem Kept.turns_assert (k : Kept net store x m) (hQ : x.Quiet) (hlate : ∀ n i, ¬ x.late n i)
    {entry : Entry} (he : store.entry? h = some entry) (habsent : ∀ a, h ∉ m.members a)
    (htwice : ∀ n left, net.Exposed n → x.twice n left h) {now : Moment}
    (hm' : m.assert net store h now = m') : Turns net store m m' := by
  obtain ⟨entered, m₁, m₂, E⟩ := k.entered W hQ hlate he habsent htwice hm'
  have T := k.sound.tidy hQ.idle
  obtain ⟨T₁, D₁⟩ := @Matching.Tidy.shelves net (m.Passing net m') _ _ T E.shelves
  obtain ⟨T₂, D₂⟩ := E.kept.recedes W hQ E.evictions
  have Sw := E.kept.sweep W hQ E.evictions
  obtain ⟨T', D₃⟩ := T₂.assertEach W (Matching.nodup_targets W E.nodup) E.told
  have hpass : ∀ {n left i}, m₁.Passing net m₂ n left i → m.Passing net m' n left i :=
    fun hp feed hk hin => hp feed hk ⟨E.members hin.1, by rw [← E.moves.members]; exact hin.2⟩
  have D := D₁.nowhere.lost_trans D₂ id hpass
  refine D.trans D₃ id ?_ (fun hx hu => (hx.after D₃.toLater hu).shifted)
    (fun hlt hu hy => .inr ((hy.2.before D.toLater hu).shifted ?_))
    fun hx hy => hx.gained hy.2 D.toLater ?_
  · rintro n left i - ⟨-, rfl⟩ feed - hin
    exact habsent feed.alpha hin.1
  · exact fun kind hk => k.not_knows hQ hlate habsent hk
  · exact fun kind hk => k.not_knows hQ hlate habsent hk

end

end RuleNet
