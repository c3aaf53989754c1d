/-
  How a fact leaves a matching.

  The fact leaves all memories, then its tokens go, and only then the nodes that ask for its absence
  are told.

  * `Matching.leaveAll`: a fact leaves some memories.
  * `Sound.unfile`, `Sound.refile`: its tokens are not filed while they are taken away.
  * `Kept.retract`: a fact leaves, and nothing is amiss afterwards.
-/
import RuleNet.Proofs.Matching.Evict

namespace RuleNet

/-! ## Memories -/

/-- A fact leaves some memories. -/
def Matching.leaveAll (m : Matching) (alphas : List AlphaId) (h : Handle) (fact : Fact) : Matching :=
  alphas.foldl (fun m a => m.leave a h fact) m

/-- A fact has left some memories, and no node knows. -/
structure Left (net : Network) (store : WorkingMemory) (alphas : List AlphaId) (h : Handle)
    (m m' : Matching) : Prop where
  shelves : Shelves m m'
  memoriesOf : m'.memoriesOf = m.memoriesOf
  stocked : Stocked net store m'
  members : ∀ {b i}, i ∈ m'.members b ↔ i ∈ m.members b ∧ ¬ (b ∈ alphas ∧ i = h)

section
variable {net : Network} {store : WorkingMemory} {x : Ledger} {m m' : Matching} {h : Handle}
  {fact : Fact}

theorem Matching.left_leaveAll (K : Stocked net store m) (hf : store.fact? h = some fact)
    (alphas : List AlphaId) : Left net store alphas h m (m.leaveAll alphas h fact) := by
  induction alphas generalizing m with
  | nil => exact ⟨.refl, rfl, K, fun {b i} => by simp [leaveAll]⟩
  | cons a rest ih =>
    have L := ih (K.leave a hf)
    refine ⟨(Shelves.leave m a h fact).trans L.shelves,
      L.memoriesOf.trans (m.memoriesOf_leave a h fact), L.stocked, fun {b i} => ?_⟩
    refine L.members.trans ?_
    rw [Stocked.members_leave, and_assoc, List.mem_cons, or_and_right, not_or, eq_comm,
      eq_comm (a := h)]

/-- A fact leaves all memories that it knows of, and so is in none. -/
theorem Kept.leaveAll (k : Kept net store x m) (hf : store.fact? h = some fact)
    {alphas : List AlphaId} (halphas : (m.memoriesOf[h]?).getD [] = alphas) {m₁ : Matching}
    (hm₁ : Matching.leaveAll { m with memoriesOf := m.memoriesOf.erase h } alphas h fact = m₁) :
    Kept net store
      { x with late := fun n i => x.late n i ∨ ((∃ a ∈ alphas, net.Feeds a n) ∧ i = h) } m₁ ∧
    Shelves m m₁ ∧ ∀ {b i}, i ∈ m₁.members b ↔ i ∈ m.members b ∧ i ≠ h := by
  have hs : Shelves m { m with memoriesOf := m.memoriesOf.erase h } := ⟨rfl, rfl, rfl, rfl, rfl, rfl⟩
  have L := Matching.left_leaveAll (m := { m with memoriesOf := m.memoriesOf.erase h })
    (k.stocked.of_alphas rfl) hf alphas
  rw [hm₁] at L
  have hin : ∀ {b i}, i ∈ m₁.members b ↔ i ∈ m.members b ∧ ¬ (b ∈ alphas ∧ i = h) := L.members
  have hmembers : ∀ {b i}, i ∈ m₁.members b ↔ i ∈ m.members b ∧ i ≠ h := by
    intro b i
    refine hin.trans (and_congr_right fun hi => not_congr (and_iff_right_of_imp ?_))
    rintro rfl
    obtain ⟨list, hlist, hb⟩ := k.housed.known hi
    rw [← halphas, hlist]
    exact hb
  refine ⟨⟨?_, L.stocked, ⟨fun {i b} hi => ?_⟩⟩, hs.trans L.shelves, hmembers⟩
  · refine k.sound.shelve (hs.trans L.shelves) Or.inl (fun {a n i} hfeeds hi hno => ?_)
      fun {a n i} _ hi hno => ?_
    · obtain ⟨ha, rfl⟩ := Classical.not_not.1 fun hne => hno (hin.2 ⟨hi, hne⟩)
      exact Or.inr ⟨⟨a, ha, hfeeds⟩, rfl⟩
    · exact absurd (hin.1 hi).1 hno
  · obtain ⟨hold, hne⟩ := hmembers.1 hi
    obtain ⟨list, hlist, hb⟩ := k.housed.known hold
    refine ⟨list, ?_, hb⟩
    rw [L.memoriesOf]
    simp only [Std.ExtTreeMap.getElem?_erase, Nat.compare_eq_eq]
    rw [if_neg (Ne.symm hne), hlist]

/-! ## Tokens -/

/-- The tokens of a fact are no longer filed. -/
theorem Sound.unfile (S : Sound net store x m) (h : Handle) :
    Sound net store { x with unfiled := fun i => x.unfiled i ∨ i = h }
      { m with tokensByFact := m.tokensByFact.erase h } where
  forest := S.forest.congr rfl rfl
  carries := S.carries
  filed {t i} := by
    have hget : t ∈ Index.get (m.tokensByFact.erase h) i ↔ t ∈ m.tokensByFact.get i ∧ i ≠ h := by
      rw [Index.get_erase]
      by_cases heq : h = i
      · subst heq
        simp
      · simp [heq, Ne.symm (a := h) heq]
    refine hget.trans ?_
    rw [S.filed, and_right_comm, not_or]
    exact Iff.rfl
  told := S.told
  blank := S.blank
  nodes := S.nodes
  settled {n node left} hn hl hb := by
    have hmatch : Matching.matchOf { m with tokensByFact := m.tokensByFact.erase h } = m.matchOf :=
      Matching.matchOf_congr rfl
    rw [hmatch]
    exact S.settled hn hl hb

/-- The tokens of a fact are filed again, once there are none. -/
theorem Sound.refile (S : Sound net store { x with unfiled := fun i => x.unfiled i ∨ i = h } m)
    (hno : ∀ t o, m.origin? t = some o → o.step.handle ≠ some h) : Sound net store x m where
  forest := S.forest
  carries := S.carries
  filed {t i} := by
    rw [S.filed]
    refine ⟨fun ⟨hu, ho⟩ => ⟨fun h => hu (Or.inl h), ho⟩, ?_⟩
    rintro ⟨hu, o, ho, hi⟩
    refine ⟨?_, o, ho, hi⟩
    rintro (hx | rfl)
    · exact hu hx
    · exact hno t o ho hi
  told := S.told
  blank := S.blank
  nodes := S.nodes
  settled hn hl hb := S.settled hn hl hb

/-! ## The whole step -/

/-- A fact has left a matching. -/
structure Retracted (net : Network) (store : WorkingMemory) (x : Ledger) (h : Handle)
    (m m' : Matching) : Prop where
  kept : Kept net store x m'
  members : ∀ {b i}, i ∈ m'.members b ↔ i ∈ m.members b ∧ i ≠ h
  deferring : m'.deferred.isSome = m.deferred.isSome
  evolves : Evolves net .all m m'

variable (W : net.WellFormed)
include W

/-- All tokens of a fact go that is in no memory. -/
theorem Sound.dropFact (S : Sound net store x m) (hidle : ∀ n left, ¬ x.busy n left)
    (hfiled : ¬ x.unfiled h) (habsent : ∀ a, h ∉ m.members a)
    (hm' : (m.tokensByFact.get h).toList.foldl (fun m t => m.delete net t)
      { m with tokensByFact := m.tokensByFact.erase h } = m') :
    Sound net store x m' ∧ Evolves net .none m m' ∧
    (∀ t o, m'.origin? t = some o → o.step.handle ≠ some h) ∧ m'.alphas = m.alphas ∧
    m'.memoriesOf = m.memoriesOf ∧ m'.deferred.isSome = m.deferred.isSome := by
  obtain ⟨S', M, hdead⟩ := (S.unfile h).dropEach W (h := h) hidle (fun t ht o ho => by
    obtain ⟨-, o', ho', hh⟩ := S.filed.1 (Std.ExtTreeSet.mem_toList.1 ht)
    obtain ⟨n, left, feed, -, hmade, hkind⟩ := S.toChained.made_of_handle ho' hh
    exact ⟨n, left, feed, hmade, hkind, habsent feed.alpha⟩) hm'
  have hnone : ∀ t o, m'.origin? t = some o → o.step.handle ≠ some h := by
    intro t o ho hh
    have hold : m.origin? t = some o := M.toEvolves.old (S.unfile h).forest S'.forest ho
    have hmem := Std.ExtTreeSet.mem_toList.2 (S.filed.2 ⟨hfiled, o, hold, hh⟩)
    rw [hdead t hmem] at ho
    cases ho
  have E : Evolves net .none m m' := ⟨M.next, M.survive, M.born⟩
  exact ⟨S'.refile hnone, E, hnone, M.alphas, M.memoriesOf, M.deferring⟩

/-- A fact leaves. -/
theorem Kept.retract (k : Kept net store x m) (hx : x.Quiet) (hf : store.fact? h = some fact)
    (hm' : m.retract net store h = m') : Retracted net store x h m m' := by
  simp only [Matching.retract, hf] at hm'
  generalize halphas : (m.memoriesOf[h]?).getD [] = alphas at hm'
  obtain ⟨m₁, hm₁⟩ : ∃ m₁, Matching.leaveAll { m with memoriesOf := m.memoriesOf.erase h } alphas h
    fact = m₁ := ⟨_, rfl⟩
  obtain ⟨k₁, hs, hmembers⟩ := k.leaveAll hf halphas hm₁
  have habsent : ∀ a, h ∉ m₁.members a := fun a hin => (hmembers.1 hin).2 rfl
  rw [Matching.leaveAll] at hm₁
  rw [hm₁] at hm'
  -- its tokens go
  obtain ⟨m₂, hm₂⟩ : ∃ m₂, (m₁.tokensByFact.get h).toList.foldl (fun m t => m.delete net t)
    { m₁ with tokensByFact := m₁.tokensByFact.erase h } = m₂ := ⟨_, rfl⟩
  obtain ⟨S₂, E₂, hno, hal, hmem, hdef⟩ := k₁.sound.dropFact W hx.idle (hx.filed h) habsent hm₂
  have hmembers₂ : m₂.members = m₁.members := funext fun a => by
    rw [Matching.members, Matching.members, Matching.alpha, Matching.alpha, hal]
  -- the nodes that its memories feed are told
  rw [hm₂, ← List.foldl_flatMap] at hm'
  obtain ⟨S', M⟩ := S₂.forget W (P := fun n => ∃ a ∈ alphas, net.Feeds a n) (h := h)
    (k₁.stocked.of_alphas hal) ⟨hx.filed, hx.listed, hx.idle, hx.agree⟩
    (fun n hn => by
      obtain ⟨a, -, kind, feed, hk, hfeed, -⟩ := hn
      obtain ⟨node, hnode, rfl⟩ := Network.kind?_eq_some.1 hk
      exact ⟨node, feed, hnode, hfeed, by rw [hmembers₂]; exact habsent feed.alpha⟩)
    (fun n feed left t _ _ hmade => by
      obtain ⟨depth, ho⟩ := hmade
      exact hno t _ ho rfl)
    (fun n => by
      rw [List.mem_flatMap]
      constructor
      · rintro ⟨a, ha, hn⟩
        exact ⟨⟨a, ha, (W.mem_watchers.1 hn).1⟩, (W.mem_watchers.1 hn).2⟩
      · rintro ⟨⟨a, ha, hn⟩, hjoin⟩
        exact ⟨a, ha, W.mem_watchers.2 ⟨hn, hjoin⟩⟩) hm'
  have hmembers' : m'.members = m₁.members := M.members.trans hmembers₂
  refine ⟨⟨S'.mono ⟨rfl, rfl, rfl, id, id, ?_, id, id⟩,
    k₁.stocked.of_alphas (M.alphas.trans hal), k₁.housed.congr hmembers' (M.memoriesOf.trans hmem)⟩,
    fun {b i} => hmembers' ▸ hmembers, ?_, ?_⟩
  · rintro n i ⟨hl, hnot⟩
    exact hl.resolve_right hnot
  · rw [M.deferring, hdef, hs.deferred]
  · exact (hs.evolves k.sound.forest).trans
      ((E₂.mono False.elim).trans (M.toEvolves.mono fun _ => Or.inl trivial))

end

end RuleNet
