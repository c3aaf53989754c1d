/-
  How facts leave one memory only, and how they leave windows.

  * `Evicted`: a fact has left a memory, and the nodes that the memory feeds know of it.
  * `Evictions`: facts leave memories one after the other, as when windows are full or events are
    too old for them.
  * `Ledger.awaits`: nodes may wait for a new fact meanwhile, as far as memories still have it.
-/
import RuleNet.Proofs.Matching.Forget

namespace RuleNet

open Network (Feeds)

/-- A matching that is at rest, but for what its ledger allows. -/
structure Kept (net : Network) (store : WorkingMemory) (x : Ledger) (m : Matching) : Prop where
  sound : Sound net store x m
  stocked : Stocked net store m
  housed : Housed m

theorem Network.WellFormed.mem_watchers {net : Network} (W : net.WellFormed) {a : AlphaId}
    {n : NodeId} : n ∈ Matching.watchers net a ↔
      net.Feeds a n ∧ (net.kind? n).any NodeKind.isJoin = false := by
  rw [Matching.watchers, List.mem_filter, W.successors, Bool.not_eq_true']
  exact Iff.rfl

/-- A matching where a fact is out of one memory, and no node knows of it. -/
def Matching.unshelve (m : Matching) (a : AlphaId) (h : Handle) (fact : Fact) : Matching :=
  let m := m.leave a h fact
  { m with memoriesOf := m.memoriesOf.modify h fun alphas => alphas.filter (· != a) }

/-- A fact has left a memory, and the nodes that the memory feeds know of it. -/
structure Evicted (net : Network) (store : WorkingMemory) (x : Ledger) (a : AlphaId) (h : Handle)
    (m m' : Matching) : Prop where
  kept : Kept net store (x.tell (net.Feeds a) h) m'
  members : ∀ {b i}, i ∈ m'.members b ↔ i ∈ m.members b ∧ ¬ (a = b ∧ h = i)
  deferring : m'.deferred.isSome = m.deferred.isSome
  evolves : Evolves net (.reopening net (net.Feeds a)) m m'

section
variable {net : Network} {store : WorkingMemory} {x : Ledger} {m m' : Matching} {a : AlphaId}
  {h : Handle}

theorem Matching.memoriesOf_leave (m : Matching) (a : AlphaId) (h : Handle) (fact : Fact) :
    (m.leave a h fact).memoriesOf = m.memoriesOf := by
  simp only [leave]
  split
  · rfl
  · rfl

theorem Matching.shelves_unshelve (m : Matching) (a : AlphaId) (h : Handle) (fact : Fact) :
    Shelves m (m.unshelve a h fact) :=
  (Shelves.leave m a h fact).trans ⟨rfl, rfl, rfl, rfl, rfl, rfl⟩

theorem Matching.members_unshelve (m : Matching) (a b : AlphaId) (h : Handle) (fact : Fact)
    {i : Handle} : i ∈ (m.unshelve a h fact).members b ↔ i ∈ m.members b ∧ ¬ (a = b ∧ h = i) :=
  Stocked.members_leave m a b h fact

theorem Housed.unshelve (H : Housed m) (fact : Fact) : Housed (m.unshelve a h fact) := by
  refine ⟨fun {i b} hi => ?_⟩
  obtain ⟨hold, hne⟩ := (m.members_unshelve a b h fact).1 hi
  obtain ⟨alphas, ha, hb⟩ := H.known hold
  have hlist : (m.unshelve a h fact).memoriesOf[i]? =
      if h = i then (m.memoriesOf[h]?).map fun alphas => alphas.filter (· != a)
      else m.memoriesOf[i]? := by
    simp only [Matching.unshelve, Matching.memoriesOf_leave, Std.ExtTreeMap.getElem?_modify,
      Nat.compare_eq_eq]
  rw [hlist]
  by_cases heq : h = i
  · subst heq
    rw [if_pos rfl, ha]
    refine ⟨_, rfl, List.mem_filter.2 ⟨hb, ?_⟩⟩
    rw [bne_iff_ne]
    rintro rfl
    exact hne ⟨rfl, rfl⟩
  · rw [if_neg heq]
    exact ⟨alphas, ha, hb⟩

theorem Sound.unshelve (S : Sound net store x m) (a : AlphaId) (h : Handle) (fact : Fact) :
    Sound net store { x with late := fun n i => x.late n i ∨ (net.Feeds a n ∧ i = h) }
      (m.unshelve a h fact) := by
  refine S.shelve (m.shelves_unshelve a h fact) Or.inl (fun {b n i} hfeeds hi hno => ?_)
    fun {b n i} _ hi hno => ?_
  · have hgone := Classical.not_not.1 fun hne => hno ((m.members_unshelve a b h fact).2 ⟨hi, hne⟩)
    obtain ⟨rfl, rfl⟩ := hgone
    exact Or.inr ⟨hfeeds, rfl⟩
  · exact absurd ((m.members_unshelve a b h fact).1 hi).1 hno

/-- The tokens of a fact at the nodes that a memory feeds. -/
def Matching.doomed (m : Matching) (net : Network) (a : AlphaId) (h : Handle) : List TokenId :=
  (m.tokensByFact.get h).toList.filter fun t =>
    ((m.tokens[t]?).bind Token.node).any fun n =>
      (net.kind? n).any fun kind => kind.alpha? == some a

/-- A fact leaves the memory, then its tokens go, then the other nodes let go of it. -/
theorem Matching.evict_eq {fact : Fact} (hf : store.fact? h = some fact) :
    m.evict net store a h = (watchers net a).foldl (retractRight net store h)
      (((m.unshelve a h fact).doomed net a h).foldl (fun m t => m.delete net t)
        (m.unshelve a h fact)) := by
  rw [evict, hf]
  rfl

theorem Sound.mem_doomed (S : Sound net store x m) (hx : ¬ x.unfiled h) {t : TokenId} {n : NodeId}
    {left : TokenId} {feed : Feed} (hmade : m.Made n left t (.fact h))
    (hkind : net.kind? n = some (.join feed)) : t ∈ m.doomed net a h ↔ feed.alpha = a := by
  obtain ⟨depth, ho⟩ := hmade
  obtain ⟨token, htoken, horigin⟩ := Matching.origin?_eq_some.1 ho
  rw [Matching.doomed, List.mem_filter, Std.ExtTreeSet.mem_toList, S.filed,
    and_iff_right ⟨hx, _, ho, rfl⟩, htoken, Option.bind_some,
    show token.node = some n from congrArg Origin.node horigin, Option.any_some, hkind,
    Option.any_some, beq_iff_eq]
  exact Option.some_inj

variable (W : net.WellFormed)
include W

/-- The tokens of a fact at the nodes that a memory feeds go, once the memory does not have it. -/
theorem Sound.drop_doomed (S : Sound net store x m) (hx : x.Quiet) (hgone : h ∉ m.members a)
    (hm' : (m.doomed net a h).foldl (fun m t => m.delete net t) m = m') :
    Sound net store x m' ∧ Moves net .all .none m m' ∧ ∀ {n feed left t},
      net.kind? n = some (.join feed) → feed.alpha = a → ¬ m'.Made n left t (.fact h) := by
  obtain ⟨S', M, hdead⟩ := S.dropEach W (h := h) hx.idle (fun t ht o ho => by
    have hfiled := Std.ExtTreeSet.mem_toList.1 (List.mem_filter.1 ht).1
    obtain ⟨-, o', ho', hh⟩ := S.filed.1 hfiled
    obtain ⟨n, left, feed, -, hmade, hkind⟩ := S.toChained.made_of_handle ho' hh
    obtain rfl := (S.mem_doomed (hx.filed h) hmade hkind).1 ht
    exact ⟨n, left, feed, hmade, hkind, hgone⟩) hm'
  refine ⟨S', M, ?_⟩
  rintro n feed left t hkind rfl ⟨depth, ho⟩
  have hold := M.toEvolves.old S.forest S'.forest ho
  rw [hdead t ((S.mem_doomed (hx.filed h) ⟨depth, hold⟩ hkind).2 rfl)] at ho
  cases ho

/-- A fact leaves a memory. -/
theorem Kept.evict (k : Kept net store x m) (hx : x.Quiet) {fact : Fact}
    (hf : store.fact? h = some fact) (hm' : m.evict net store a h = m') :
    Evicted net store x a h m m' := by
  have hs := m.shelves_unshelve a h fact
  have hmembers := fun b i => m.members_unshelve a b h fact (i := i)
  have H₁ := k.housed.unshelve (a := a) (h := h) fact
  have S₁ := k.sound.unshelve a h fact
  have K₁ : Stocked net store (m.unshelve a h fact) := (k.stocked.leave a hf).of_alphas rfl
  rw [Matching.evict_eq hf] at hm'
  generalize m.unshelve a h fact = m₁ at hm' hs hmembers H₁ S₁ K₁
  have hgone : h ∉ m₁.members a := fun hin => ((hmembers _ _).1 hin).2 ⟨rfl, rfl⟩
  have hx₁ : Ledger.Quiet { x with late := fun n i => x.late n i ∨ (net.Feeds a n ∧ i = h) } :=
    ⟨hx.filed, hx.listed, hx.idle, hx.agree⟩
  obtain ⟨m₂, hm₂⟩ : ∃ m₂, (m₁.doomed net a h).foldl (fun m t => m.delete net t) m₁ = m₂ :=
    ⟨_, rfl⟩
  rw [hm₂] at hm'
  obtain ⟨S₂, M₂, hdead⟩ := S₁.drop_doomed W hx₁ hgone hm₂
  obtain ⟨S', M'⟩ := S₂.forget W (P := net.Feeds a) (K₁.of_alphas M₂.alphas) hx₁
    (fun n hn => by
      obtain ⟨kind, feed, hk, hfeed, rfl⟩ := hn
      obtain ⟨node, hnode, rfl⟩ := Network.kind?_eq_some.1 hk
      exact ⟨node, feed, hnode, hfeed, by rw [M₂.members]; exact hgone⟩)
    (fun n feed left t hn hkind hmade => by
      obtain ⟨kind, feed', hk, hfeed, ha⟩ := hn
      obtain rfl := Option.some.inj (hk.symm.trans hkind)
      cases hfeed
      exact hdead hkind ha hmade)
    (fun n => W.mem_watchers) hm'
  have M := (M₂.mono (fun _ => Or.inl trivial) False.elim fun _ => trivial).trans M'
  refine ⟨⟨S'.mono ⟨rfl, rfl, rfl, id, id, ?_, id, id⟩, K₁.of_alphas M.alphas,
    H₁.congr M.members M.memoriesOf⟩, fun {b i} => ?_, ?_, (hs.evolves k.sound.forest).trans
      M.toEvolves⟩
  · rintro n i ⟨hl, hno⟩
    exact ⟨hl.resolve_right hno, hno⟩
  · rw [M.members]
    exact hmembers b i
  · rw [M.deferring, hs.deferred]

end

/-! ## One fact after the other -/

/-- Facts leave memories, one after the other. -/
inductive Evictions (net : Network) (store : WorkingMemory) (A : AlphaId → Prop) (m : Matching) :
    Matching → Prop
  | refl : Evictions net store A m m
  | step {m' : Matching} {a : AlphaId} (h : Handle) (ha : A a)
      (e : Evictions net store A m m') : Evictions net store A m (m'.evict net store a h)

namespace Evictions

variable {net : Network} {store : WorkingMemory} {A : AlphaId → Prop} {m m' : Matching}

theorem each {a : AlphaId} (ha : A a) (hs : List Handle) (e : Evictions net store A m m') :
    Evictions net store A m (hs.foldl (Matching.evict net store a) m') := by
  induction hs generalizing m' with
  | nil => exact e
  | cons h rest ih => exact ih (e.step h ha)

/-- Memories let go of what is too much for them. -/
theorem sweep (goes : Matching → AlphaId → List Handle) (as : List AlphaId)
    (hA : ∀ m, ∀ a ∈ as, goes m a ≠ [] → A a) (e : Evictions net store A m m') :
    Evictions net store A m
      (as.foldl (fun m a => (goes m a).foldl (Matching.evict net store a) m) m') := by
  induction as generalizing m' with
  | nil => exact e
  | cons a rest ih =>
    refine ih (fun m b hb => hA m b (List.mem_cons_of_mem a hb)) ?_
    by_cases hno : goes m' a = []
    · simp only [hno, List.foldl_nil]
      exact e
    · exact e.each (hA m' a List.mem_cons_self hno) (goes m' a)

end Evictions

/-- Nodes wait for a fact that has come to some memories, as long as these have it. -/
def Ledger.awaits (x : Ledger) (net : Network) (entered : List AlphaId) (h : Handle)
    (m : Matching) : Ledger :=
  { x with late := fun n i => i = h ∧ ∃ a ∈ entered, net.Feeds a n ∧ h ∈ m.members a }

/-- Facts have left some memories, and all nodes know but for the fact that they wait for. -/
structure Swept (net : Network) (store : WorkingMemory) (x : Ledger) (A : AlphaId → Prop)
    (entered : List AlphaId) (h : Handle) (m m' : Matching) : Prop where
  kept : Kept net store (x.awaits net entered h m') m'
  members : ∀ {b i}, i ∈ m'.members b → i ∈ m.members b
  deferring : m'.deferred.isSome = m.deferred.isSome
  evolves : Evolves net (.reopening net fun n => ∃ a, A a ∧ net.Feeds a n) m m'

/-- Many facts leave memories. -/
theorem Kept.sweep {net : Network} {store : WorkingMemory} {x : Ledger} {A : AlphaId → Prop}
    {entered : List AlphaId} {h : Handle} {m m' : Matching} (W : net.WellFormed)
    (k : Kept net store (x.awaits net entered h m) m) (hx : x.Quiet)
    (e : Evictions net store A m m') : Swept net store x A entered h m m' := by
  induction e with
  | refl => exact ⟨k, id, rfl, .refl k.sound.forest⟩
  | @step m' a i ha e ih =>
    cases hf : store.fact? i with
    | none =>
      simp only [Matching.evict, hf]
      exact ih
    | some fact =>
      have E := ih.kept.evict (a := a) W ⟨hx.filed, hx.listed, hx.idle, hx.agree⟩ hf rfl
      refine ⟨⟨E.kept.sound.mono ⟨rfl, rfl, rfl, id, id, ?_, id, id⟩, E.kept.stocked,
        E.kept.housed⟩, fun hi => ih.members (E.members.1 hi).1, E.deferring.trans ih.deferring,
        ih.evolves.trans (E.evolves.mono fun hr => Or.inl ⟨⟨_, ha, hr.1⟩, hr.2⟩)⟩
      rintro n j ⟨⟨rfl, b, hb, hfeeds, hin⟩, hno⟩
      refine ⟨rfl, b, hb, hfeeds, E.members.2 ⟨hin, ?_⟩⟩
      rintro ⟨rfl, rfl⟩
      exact hno ⟨hfeeds, rfl⟩

end RuleNet
