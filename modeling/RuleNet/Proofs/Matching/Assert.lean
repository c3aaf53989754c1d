/-
  How a fact enters a matching.

  Nodes are told of the fact from the deepest one upwards, so a join that has seen it already is not
  made to see it again. Only what leaves full windows on the way may tell a join before its turn.

  * `Network.Exposed`: the joins that may be told of a fact before their turn.
  * `Sound.assertEach`: nodes are told of a fact, none before those below it.
  * `Kept.entered`, `Kept.assert`: a fact enters, and nothing is amiss afterwards.
-/
import RuleNet.Proofs.Matching.Evict

namespace RuleNet

open Matching (Extension)

/-- Whether a fact may reach a join twice: above the join stands a node that makes tokens when facts
    go from its length window, and some fact comes both to this window and to the join. -/
def Network.Exposed (net : Network) (n : NodeId) : Prop :=
  ∃ feed, net.kind? n = some (.join feed) ∧ ∃ w kind a alpha capacity,
    net.Beneath w n ∧ net.kind? w = some kind ∧ kind.reopens = true ∧ net.Feeds a w ∧
    net.alpha? a = some alpha ∧ alpha.window = some (.length capacity) ∧
    ∃ fact moment, net.Takes a fact moment ∧ net.Takes feed.alpha fact moment

section
variable {net : Network} {store : WorkingMemory} {x : Ledger} {m m' : Matching} {h : Handle}

/-- There are no tokens of a fact that no memory has and no node waits for. -/
theorem Sound.no_token (S : Sound net store x m) (hidle : ∀ n left, ¬ x.busy n left)
    (hlate : ∀ n, ¬ x.late n h) (habsent : ∀ a, h ∉ m.members a) (n : NodeId) (left t : TokenId) :
    ¬ m.Made n left t (.fact h) := by
  rintro ⟨depth, ho⟩
  obtain ⟨node, hn, hl⟩ : m.LeftOf net n left := by
    obtain ⟨p, k, node, above, hp, hk, hn, -, habove, heq, -⟩ :=
      S.forest.made ho (S.forest.ne_root ho rfl)
    cases hp
    cases hk
    exact ⟨node, hn, above, habove, heq⟩
  obtain ⟨n', left', feed, hn', hmade, hkind⟩ := S.toChained.made_of_handle ho rfl
  cases hn'
  have hjoin : node.kind = .join feed := Option.some.inj ((Network.kind?_eq hn).symm.trans hkind)
  have hs := S.settled hn hl (hidle n left)
  rw [hjoin] at hs
  rcases (hs.2.1 h).1 ⟨t, depth, ho⟩ with hin | hl
  · exact habsent feed.alpha hin.1
  · exact hlate n hl.1

theorem Network.admits_of_candidate {fact : Fact} {a : AlphaId} (ha : a ∈ net.candidates fact) :
    ∃ alpha, net.alpha? a = some alpha ∧ alpha.admits fact = true := by
  have hany := (List.mem_filter.1 ha).2
  cases hal : net.alpha? a with
  | none =>
    rw [hal] at hany
    cases hany
  | some alpha =>
    rw [hal] at hany
    exact ⟨alpha, rfl, hany⟩

/-- A fact that is in no memory comes to those that take it. -/
theorem Kept.receive (k : Kept net store x m) (hlate : ∀ n i, ¬ x.late n i) {entry : Entry}
    {tried entered : List AlphaId} (O : Offered net store h entry tried entered m m')
    (habsent : ∀ a, h ∉ m.members a) {m₂ : Matching}
    (hm₂ : { m' with memoriesOf := m'.memoriesOf.insert h entered } = m₂) :
    Kept net store (x.awaits net entered h m₂) m₂ ∧ Shelves m m₂ ∧ m₂.members = m'.members := by
  have hs : Shelves m m₂ := hm₂ ▸ O.shelves.trans ⟨rfl, rfl, rfl, rfl, rfl, rfl⟩
  have hmembers : m₂.members = m'.members := hm₂ ▸ rfl
  have hin : ∀ {b i}, i ∈ m₂.members b ↔ (b ∈ entered ∧ i = h) ∨ i ∈ m.members b :=
    hmembers ▸ O.members
  refine ⟨⟨?_, hm₂ ▸ O.stocked.of_alphas rfl, ⟨fun {i a} hi => ?_⟩⟩, hs, hmembers⟩
  · refine k.sound.shelve hs (fun hl => absurd hl (hlate _ _)) (fun _ hi hno => ?_)
      fun hfeeds hi hno => ⟨?_, hlate _ _⟩
    · exact absurd (hin.2 (Or.inr hi)) hno
    · obtain ⟨ha, rfl⟩ := (hin.1 hi).resolve_right hno
      exact ⟨rfl, _, ha, hfeeds, hi⟩
  · have hlist : m₂.memoriesOf[i]? = if h = i then some entered else m.memoriesOf[i]? := by
      rw [← hm₂, ← O.memoriesOf]
      simp only [Std.ExtTreeMap.getElem?_insert, Nat.compare_eq_eq]
    rw [hlist]
    rcases hin.1 hi with ⟨ha, rfl⟩ | hold
    · exact ⟨entered, if_pos rfl, ha⟩
    · rw [if_neg fun e : h = i => habsent a (e ▸ hold)]
      exact k.housed.known hold

/-- Only length windows let go of facts because others come. -/
theorem Matching.window_of_surplus {a : AlphaId} (hne : m.surplus net a ≠ []) :
    ∃ alpha capacity, net.alpha? a = some alpha ∧ alpha.window = some (.length capacity) := by
  unfold surplus at hne
  split at hne
  · next capacity hw =>
    obtain ⟨alpha, ha, hw⟩ := Option.bind_eq_some_iff.1 hw
    exact ⟨alpha, capacity, ha, hw⟩
  · exact absurd rfl hne

/-- The nodes that are told of a fact, in their order. -/
def Matching.targets (m : Matching) (net : Network) (entered : List AlphaId) (h : Handle) :
    List NodeId :=
  net.deepestFirst ((entered.filter fun a => (m.alpha a).facts.contains h).flatMap net.successorsOf)

variable (W : net.WellFormed)
include W

/-- Nodes are told of a fact that has come to their memories, none before those below it. -/
theorem Sound.assertEach (ts : List NodeId)
    (S : Sound net store { x with late := fun n i => i = h ∧ n ∈ ts } m) (K : Stocked net store m)
    (hx : x.Quiet) (hnodup : ts.Nodup) (hdeep : ts.Pairwise fun n k => ¬ net.Beneath n k)
    (hts : ∀ n ∈ ts, ∃ node feed, net.node? n = some node ∧ node.kind.feed? = some feed ∧
      h ∈ m.members feed.alpha)
    (htwice : ∀ n ∈ ts, (net.kind? n).any NodeKind.isJoin = true →
      ∀ left, x.twice n left h ∨ ∀ t, ¬ m.Made n left t (.fact h))
    (hm' : ts.foldl (Matching.assertRight net store h) m = m') :
    Sound net store { x with late := fun _ _ => False } m' ∧ Moves net .all .all m m' := by
  induction ts generalizing m with
  | nil =>
    subst hm'
    exact ⟨S.mono ⟨rfl, rfl, rfl, id, id, fun hl => absurd hl.2 List.not_mem_nil, id, id⟩,
      .refl S.forest id⟩
  | cons n rest ih =>
    obtain ⟨hn, hrest⟩ := List.nodup_cons.1 hnodup
    obtain ⟨hnot, hdeep'⟩ := List.pairwise_cons.1 hdeep
    obtain ⟨node, feed, hnode, hf, hin⟩ := hts n List.mem_cons_self
    obtain ⟨S₁, M⟩ := S.assertRight W K ⟨hx.filed, fun {c i} _ => hx.listed c i, hx.agree⟩
      (hx.listed n h) hnode hf (hx.idle n) hin (fun hjoin => htwice n List.mem_cons_self (by
        rw [Network.kind?_eq hnode, Option.any_some]
        exact hjoin)) rfl
    rw [List.foldl_cons] at hm'
    generalize m.assertRight net store h n = m₁ at hm' S₁ M
    have S₂ : Sound net store { x with late := fun k i => i = h ∧ k ∈ rest } m₁ := by
      refine S₁.mono ⟨rfl, rfl, rfl, id, id, ?_, id, id⟩
      rintro k i ⟨⟨rfl, hk⟩, hno⟩
      exact ⟨rfl, (List.mem_cons.1 hk).resolve_left fun e => hno ⟨e, rfl⟩⟩
    obtain ⟨S', M'⟩ := ih S₂ (K.of_alphas M.alphas) hrest hdeep'
      (fun k hk => by
        rw [M.members]
        exact hts k (List.mem_cons_of_mem n hk))
      (fun k hk hjoin left =>
        (htwice k (List.mem_cons_of_mem n hk) hjoin left).imp_right fun hno t hmade => by
          by_cases hlt : t < m.nextToken
          · obtain ⟨depth, ho⟩ := hmade
            exact hno t ⟨depth, M.survive hlt ho⟩
          · -- a new token stands at the node that was told or below it
            rcases M.born (Nat.not_lt.1 hlt) hmade with hb | ⟨-, a, l, hb, hlow⟩
            · obtain rfl : k = n := hb
              exact hn hk
            · obtain rfl : a = n := hb
              exact hnot k hk hlow) hm'
    exact ⟨S', (M.mono (fun _ => Or.inl trivial) (fun _ => Or.inl trivial) fun _ => trivial).trans M'⟩

/-- Those are told that are fed by the memories the fact has come to. -/
theorem Matching.mem_targets {entered : List AlphaId} {n : NodeId} :
    n ∈ m.targets net entered h ↔ ∃ a ∈ entered, net.Feeds a n ∧ h ∈ m.members a := by
  rw [targets, Network.mem_deepestFirst, List.mem_flatMap]
  constructor
  · rintro ⟨a, ha, hn⟩
    obtain ⟨ha, hin⟩ := List.mem_filter.1 ha
    exact ⟨a, ha, W.successors.1 hn, Std.ExtTreeSet.contains_iff_mem.1 hin⟩
  · rintro ⟨a, ha, hn, hin⟩
    exact ⟨a, List.mem_filter.2 ⟨ha, Std.ExtTreeSet.contains_iff_mem.2 hin⟩, W.successors.2 hn⟩

theorem Matching.nodup_targets {entered : List AlphaId} (hnodup : entered.Nodup) :
    (m.targets net entered h).Nodup :=
  Network.nodup_deepestFirst (W.nodup_successors_of (List.Pairwise.filter _ hnodup))

theorem Matching.pairwise_targets (entered : List AlphaId) :
    (m.targets net entered h).Pairwise fun n k => ¬ net.Beneath n k :=
  (Network.pairwise_deepestFirst _).imp fun hle hb =>
    Nat.not_lt.2 hle (W.depth_lt_of_beneath hb)

omit W in
/-- When windows have let go of what was too much, a join has not seen the new fact yet, unless it
    is exposed. -/
theorem Evolves.unseen {A : AlphaId → Prop} (E : Evolves net
    (.reopening net fun n => ∃ a, (A a ∧ ∃ alpha capacity, net.alpha? a = some alpha ∧
      alpha.window = some (.length capacity)) ∧ net.Feeds a n) m m')
    (hno : ∀ n left t, ¬ m.Made n left t (.fact h)) {fact : Fact} {moment : Moment}
    (htakes : ∀ a, A a → net.Takes a fact moment) {n : NodeId} {b : AlphaId} (hb : A b)
    (hfeeds : net.Feeds b n) (hjoin : (net.kind? n).any NodeKind.isJoin = true)
    (hexposed : ¬ net.Exposed n) (left t : TokenId) : ¬ m'.Made n left t (.fact h) := by
  intro hmade
  obtain ⟨kind, feed, hk, hf, rfl⟩ := hfeeds
  rw [hk, Option.any_some] at hjoin
  cases kind with
  | join f =>
    cases hf
    by_cases hlt : t < m.nextToken
    · obtain ⟨depth, ho⟩ := hmade
      exact hno n left t ⟨depth, E.survive hlt ho⟩
    · rcases E.born (Nat.not_lt.1 hlt) hmade with ⟨-, kind', hk', hr⟩ | ⟨-, w, l, hw, hlow⟩
      · obtain rfl := Option.some.inj (hk.symm.trans hk')
        cases hr
      · obtain ⟨⟨a, ⟨ha, alpha, capacity, halpha, hwindow⟩, hfeeds⟩, kind', hk', hr⟩ := hw
        exact hexposed ⟨feed, hk, w, kind', a, alpha, capacity, hlow, hk', hr, hfeeds, halpha,
          hwindow, fact, moment, htakes a ha, htakes feed.alpha hb⟩
  | _ => cases hjoin

/-- A fact has entered: it has come to the memories that take it, these have let go of what is too
    much for them, and then the nodes that they feed have been told. -/
structure Entered (net : Network) (store : WorkingMemory) (x : Ledger) (h : Handle)
    (entered : List AlphaId) (m m₁ m₂ m' : Matching) : Prop where
  nodup : entered.Nodup
  shelves : Shelves m m₁
  members : ∀ {b i}, i ∈ m.members b → i ∈ m₁.members b
  kept : Kept net store (x.awaits net entered h m₁) m₁
  evictions : Evictions net store (fun a => a ∈ entered ∧ ∃ alpha capacity,
    net.alpha? a = some alpha ∧ alpha.window = some (.length capacity)) m₁ m₂
  told : (m₂.targets net entered h).foldl (Matching.assertRight net store h) m₂ = m'
  sound : Sound net store { x with late := fun _ _ => False } m'
  moves : Moves net .all .all m₂ m'

/-- A fact that is in no memory enters, step by step. -/
theorem Kept.entered (k : Kept net store x m) (hx : x.Quiet) (hlate : ∀ n i, ¬ x.late n i)
    {entry : Entry} (he : store.entry? h = some entry) (habsent : ∀ a, h ∉ m.members a)
    (htwice : ∀ n left, net.Exposed n → x.twice n left h) {now : Moment}
    (hm' : m.assert net store h now = m') :
    ∃ entered m₁ m₂, Entered net store x h entered m m₁ m₂ m' := by
  rcases ho : Matching.offerAll net now h entry m (net.candidates entry.fact) with ⟨entered, m₁⟩
  simp only [Matching.assert, he, ho] at hm'
  have O := Matching.offerAll_spec k.stocked he (fun a => Network.admits_of_candidate) ho
  obtain ⟨m₂, hm₂⟩ : ∃ m₂, { m₁ with memoriesOf := m₁.memoriesOf.insert h entered } = m₂ :=
    ⟨_, rfl⟩
  obtain ⟨k₂, hs, hmembers⟩ := k.receive hlate O habsent hm₂
  have ev : Evictions net store (fun a => a ∈ entered ∧ ∃ alpha capacity,
      net.alpha? a = some alpha ∧ alpha.window = some (.length capacity)) m₂ _ :=
    Evictions.refl.sweep (Matching.surplus net) entered
      fun m a ha hne => ⟨ha, Matching.window_of_surplus hne⟩
  have Sw := k₂.sweep W hx ev
  rw [hm₂] at hm'
  generalize entered.foldl (fun m a => (m.surplus net a).foldl (Matching.evict net store a) m) m₂ =
    m₃ at hm' ev Sw
  have E := (hs.evolves k.sound.forest).trans Sw.evolves
  have hnodup : entered.Nodup := O.sublist.nodup (List.Pairwise.filter _ List.nodup_range)
  have hmem : ∀ {n}, n ∈ m₃.targets net entered h ↔
      ∃ a ∈ entered, net.Feeds a n ∧ h ∈ m₃.members a := Matching.mem_targets W
  -- the nodes that it feeds are told, the deepest first
  obtain ⟨S', M⟩ := Sound.assertEach W (x := x) (m₃.targets net entered h)
    (Sw.kept.sound.mono ⟨rfl, rfl, rfl, id, id, fun hl => ⟨hl.1, hmem.2 hl.2⟩, id, id⟩)
    Sw.kept.stocked hx (Matching.nodup_targets W hnodup) (Matching.pairwise_targets W entered)
    (fun n hn => by
      obtain ⟨a, -, ⟨kind, feed, hk, hf, rfl⟩, hin⟩ := hmem.1 hn
      obtain ⟨node, hnode, rfl⟩ := Network.kind?_eq_some.1 hk
      exact ⟨node, feed, hnode, hf, hin⟩)
    (fun n hn hjoin left => by
      obtain ⟨a, ha, hfeeds, -⟩ := hmem.1 hn
      by_cases hexposed : net.Exposed n
      · exact Or.inl (htwice n left hexposed)
      · exact Or.inr (E.unseen (k.sound.no_token hx.idle (fun n => hlate n h) habsent) O.takes ha
          hfeeds hjoin hexposed left)) hm'
  exact ⟨entered, m₂, m₃, hnodup, hs, fun hi => hmembers ▸ O.members.2 (Or.inr hi), k₂, ev, hm', S', M⟩

/-- A fact that is in no memory enters. -/
theorem Kept.assert (k : Kept net store x m) (hx : x.Quiet) (hlate : ∀ n i, ¬ x.late n i)
    {entry : Entry} (he : store.entry? h = some entry) (habsent : ∀ a, h ∉ m.members a)
    (htwice : ∀ n left, net.Exposed n → x.twice n left h) {now : Moment}
    (hm' : m.assert net store h now = m') :
    Kept net store x m' ∧ m'.deferred.isSome = m.deferred.isSome ∧ Evolves net .all m m' := by
  obtain ⟨entered, m₁, m₂, T⟩ := k.entered W hx hlate he habsent htwice hm'
  have Sw := T.kept.sweep W hx T.evictions
  refine ⟨⟨T.sound.mono ⟨rfl, rfl, rfl, id, id, False.elim, id, id⟩,
    Sw.kept.stocked.of_alphas T.moves.alphas,
    Sw.kept.housed.congr T.moves.members T.moves.memoriesOf⟩, ?_, ?_⟩
  · rw [T.moves.deferring, Sw.deferring, T.shelves.deferred]
  · exact (((T.shelves.evolves k.sound.forest).trans Sw.evolves).mono fun _ => Or.inl trivial).trans
      T.moves.toEvolves

end

end RuleNet
