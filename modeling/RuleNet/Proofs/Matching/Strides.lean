/-
  The strides that matches go by.

  Wherever facts come, change or go, nodes write down what they find, tokens are made one by one and
  taken away one by one, and memories change. So there is a way of such strides from the matches before
  to the matches after.

  * `Matching.Stride`, `Matching.Course`: one stride, and a way of them.
  * `Matching.course_retract`, `Matching.course_assert`, `Matching.course_expireWindows`: facts go and
    come by strides.
  * `Matching.Course.survive`, `Matching.Course.chain`: what lives after a way has lived along it, from
    when it was made.
  * `Matching.Course.formed`, `Matching.Course.formed_new`: a token that is told to have come to a terminal
    was made on the way, by the terminal's node, so no such token was there before.
-/
import Mathlib.Logic.Relation
import RuleNet.Proofs.Matching.Prune
import RuleNet.Proofs.Matching.Works

namespace RuleNet.Matching

/-- One of the strides that everything is made of. -/
inductive Stride (net : Network) : Matching → Matching → Prop
  | write (m : Matching) (nodes : Std.ExtTreeMap NodeId NodeMemory)
    (deferred : Option (Std.ExtTreeSet (NodeId × TokenId) dictionary)) :
    Stride net m { m with nodes, deferred }
  | grow (m : Matching) (n : NodeId) (parent : TokenId) (e : Extension) :
    Stride net m (m.addToken net n parent e)
  | drop (m : Matching) (t : TokenId) : Stride net m (m.dropToken net t)
  | shelve (m : Matching) (alphas : Std.ExtTreeMap AlphaId AlphaMemory) (tokensByFact : Index)
    (memoriesOf : Std.ExtTreeMap Handle (List AlphaId)) :
    Stride net m { m with alphas, tokensByFact, memoriesOf }

/-- A way of strides. -/
abbrev Course (net : Network) : Matching → Matching → Prop := Relation.ReflTransGen (Stride net)

variable {net : Network} {store : WorkingMemory} {m m' : Matching}

theorem Stride.course (h : Stride net m m') : Course net m m' := .single h

/-! ## What goes by strides -/

/-- What nodes do, they do by strides. -/
theorem carries_course (net : Network) : Carries net (Course net) where
  refl _ := .refl
  trans := .trans
  write m nodes deferred := (Stride.write m nodes deferred).course
  addToken m n parent e := (Stride.grow m n parent e).course
  dropToken m t := (Stride.drop m t).course

theorem course_shelve (m : Matching) (alphas : Std.ExtTreeMap AlphaId AlphaMemory)
    (tokensByFact : Index) (memoriesOf : Std.ExtTreeMap Handle (List AlphaId)) :
    Course net m { m with alphas, tokensByFact, memoriesOf } :=
  (Stride.shelve m alphas tokensByFact memoriesOf).course

theorem course_leave (m : Matching) (a : AlphaId) (h : Handle) (fact : Fact) :
    Course net m (m.leave a h fact) := by
  simp only [leave]
  split
  · exact course_shelve m _ m.tokensByFact m.memoriesOf
  · exact .refl

/-- A fact leaves. -/
theorem course_retract (m : Matching) (h : Handle) : Course net m (m.retract net store h) := by
  have C := carries_course net
  unfold retract
  split
  · exact .refl
  · next fact _ =>
    have hleave : ∀ (alphas : List AlphaId) (m : Matching),
        Course net m (alphas.foldl (fun m a => m.leave a h fact) m) :=
      C.foldl fun m a => course_leave m a h fact
    have hforgotten := @course_shelve net m m.alphas m.tokensByFact (m.memoriesOf.erase h)
    have hunfiled : ∀ m : Matching, Course net m { m with tokensByFact := m.tokensByFact.erase h } :=
      fun m => course_shelve m m.alphas _ m.memoriesOf
    dsimp only
    refine C.trans ((hforgotten.trans (hleave ((m.memoriesOf[h]?).getD []) _)).trans (hunfiled _)) ?_
    exact C.trans (C.foldl (fun m t => C.delete t m) _ _)
      (C.foldl (fun m a => C.foldl (C.retractRight store h) _ m) _ _)

/-- A fact leaves one memory. -/
theorem course_evict (a : AlphaId) (m : Matching) (h : Handle) :
    Course net m (m.evict net store a h) := by
  have C := carries_course net
  unfold evict
  split
  · exact .refl
  · next fact _ =>
    refine C.trans ?_ (C.release store h _ _ _)
    exact (course_leave m a h fact).trans (course_shelve (m.leave a h fact) _ _ _)

/-- Events leave the windows that they are too old for. -/
theorem course_expireWindows (m : Matching) (now : Moment) :
    Course net m (m.expireWindows net store now) := by
  have C := carries_course net
  exact C.foldl (fun m a => C.foldl (course_evict a) _ m) _ m

theorem course_offer {now : Moment} {h : Handle} {entry : Entry} (m : Matching) (a : AlphaId) :
    Course net m (m.offer net now h entry a).2 := by
  have henter : ∀ (m : Matching) fields position,
      Course net m (m.enter a fields h entry.fact position) := fun m _ _ =>
    course_shelve m _ m.tokensByFact m.memoriesOf
  unfold offer
  split
  · exact .refl
  · split
    · split
      · split
        · exact henter m _ _
        · exact .refl
      · exact (course_shelve m _ m.tokensByFact m.memoriesOf).trans (henter _ _ _)
    · exact .refl

theorem course_offerAll {now : Moment} {h : Handle} {entry : Entry} (tried : List AlphaId)
    (m : Matching) : Course net m (offerAll net now h entry m tried).2 := by
  induction tried generalizing m with
  | nil => exact .refl
  | cons a rest ih => exact (course_offer m a).trans (ih _)

/-- A fact enters. -/
theorem course_assert (m : Matching) (h : Handle) (now : Moment) :
    Course net m (m.assert net store h now) := by
  have C := carries_course net
  unfold assert
  split
  · exact .refl
  · next entry _ =>
    rcases hoffer : offerAll net now h entry m (net.candidates entry.fact) with ⟨entered, m₁⟩
    have hoffered : Course net m m₁ := by
      have hall := @course_offerAll net now h entry (net.candidates entry.fact) m
      rwa [hoffer] at hall
    have hhoused := hoffered.trans
      (course_shelve m₁ m₁.alphas m₁.tokensByFact (m₁.memoriesOf.insert h entered))
    dsimp only
    refine C.trans (C.trans hhoused ?_) (C.foldl (C.assertRight store h) _ _)
    exact C.foldl (fun m a => C.foldl (course_evict a) _ m) _ _

/-! ## What lives -/

/-- Tokens are numbered as they are made, and what lives on is what it was. -/
theorem Stride.survive (h : Stride net m m') : m.nextToken ≤ m'.nextToken ∧
    ∀ {t o}, t < m.nextToken → m'.origin? t = some o → m.origin? t = some o := by
  cases h with
  | write nodes deferred => exact ⟨Nat.le_refl _, fun _ ho => ho⟩
  | grow n parent e =>
    refine ⟨(nextToken_addToken e).symm ▸ Nat.le_succ _, fun {t o} hlt ho => ?_⟩
    rwa [origin?_addToken, if_neg (Nat.ne_of_lt hlt)] at ho
  | drop t =>
    have D := @drops_dropToken net m t
    refine ⟨Nat.le_of_eq D.nextToken.symm, fun {t' o} _ ho => ?_⟩
    rw [D.origin] at ho
    split at ho
    · cases ho
    · exact ho
  | shelve alphas tokensByFact memoriesOf => exact ⟨Nat.le_refl _, fun _ ho => ho⟩

theorem Course.survive (h : Course net m m') : m.nextToken ≤ m'.nextToken ∧
    ∀ {t o}, t < m.nextToken → m'.origin? t = some o → m.origin? t = some o := by
  induction h with
  | refl => exact ⟨Nat.le_refl _, fun _ ho => ho⟩
  | tail _ hstride ih =>
    obtain ⟨hnext, hlives⟩ := hstride.survive
    exact ⟨Nat.le_trans ih.1 hnext, fun hlt ho => ih.2 hlt (hlives (Nat.lt_of_lt_of_le hlt ih.1) ho)⟩

/-- What lives after a way lived before it as well, below the same tokens. -/
theorem Course.chain (h : Course net m m') (F : m'.Forest net) {t : TokenId} {o : Origin}
    (ho : m'.origin? t = some o) (hlt : t < m.nextToken) :
    (m.chain t).map Token.origin = (m'.chain t).map Token.origin :=
  F.chain_survive h.survive.2 ho hlt

/-! ## What is told -/

theorem events_addToken (net : Network) (m : Matching) (n : NodeId) (parent : TokenId)
    (e : Extension) : (m.addToken net n parent e).events.toList =
      m.events.toList ++ (net.terminalsOf n).map fun τ => .formed τ m.nextToken := by
  unfold addToken
  dsimp only
  split <;> exact Array.toList_appendList

theorem events_removeLefts (cs : List NodeId) (t : TokenId) (m : Matching) :
    (cs.foldl (fun m child => m.removeLeft child t) m).events = m.events := by
  induction cs generalizing m with
  | nil => rfl
  | cons child rest ih => exact ih _

/-- A token that goes leaves terminals. -/
theorem events_dropToken (net : Network) (m : Matching) (t : TokenId) :
    ∃ terminals : List TerminalId, (m.dropToken net t).events.toList =
      m.events.toList ++ terminals.map fun τ => .broken τ t := by
  unfold dropToken
  split
  · exact ⟨[], (List.append_nil _).symm⟩
  · dsimp only
    split
    · exact ⟨[], (List.append_nil _).symm⟩
    · next n _ =>
      refine ⟨net.terminalsOf n, ?_⟩
      rw [events_removeLefts]
      exact Array.toList_appendList

/-- A token is made: there is a way to where it is made, and one from there. -/
structure Makes (net : Network) (m m' : Matching) (n : NodeId) (t : TokenId) (before after : Matching) :
    Prop where
  hither : Course net m before
  made : ∃ parent e, after = before.addToken net n parent e
  number : before.nextToken = t
  onward : Course net after m'

/-- The token is one of the node. -/
theorem Makes.origin {n : NodeId} {t : TokenId} {before after : Matching}
    (h : Makes net m m' n t before after) :
    t < after.nextToken ∧ ∃ o, after.origin? t = some o ∧ o.node = some n := by
  obtain ⟨parent, e, rfl⟩ := h.made
  rw [nextToken_addToken, origin?_addToken, h.number, if_pos rfl]
  exact ⟨Nat.lt_succ_self t, _, rfl, rfl⟩

/-- What is told to have come to a terminal on the way was made by the terminal's node. -/
theorem Course.formed (h : Course net m m') {τ : TerminalId} {t : TokenId}
    (hτ : .formed τ t ∈ m'.events.toList) : .formed τ t ∈ m.events.toList ∨
      ∃ n before after, τ ∈ net.terminalsOf n ∧ Makes net m m' n t before after := by
  induction h with
  | refl => exact .inl hτ
  | @tail m₁ m₂ hway hstride ih =>
    have hold : .formed τ t ∈ m₁.events.toList → .formed τ t ∈ m.events.toList ∨
        ∃ n before after, τ ∈ net.terminalsOf n ∧ Makes net m m₂ n t before after := fun h₁ =>
      (ih h₁).imp_right fun ⟨n, before, after, hn, M⟩ =>
        ⟨n, before, after, hn, M.hither, M.made, M.number, M.onward.tail hstride⟩
    cases hstride with
    | write nodes deferred => exact hold hτ
    | shelve alphas tokensByFact memoriesOf => exact hold hτ
    | drop t' =>
      obtain ⟨terminals, hevents⟩ := m₁.events_dropToken net t'
      rw [hevents, List.mem_append] at hτ
      refine hold (hτ.resolve_right fun hgone => ?_)
      obtain ⟨_, -, heq⟩ := List.mem_map.1 hgone
      cases heq
    | grow n parent e =>
      rw [events_addToken, List.mem_append] at hτ
      rcases hτ with hτ | hτ
      · exact hold hτ
      · obtain ⟨τ', hτ', heq⟩ := List.mem_map.1 hτ
        cases heq
        exact .inr ⟨n, m₁, _, hτ', hway, ⟨parent, e, rfl⟩, rfl, .refl⟩

/-- The node is the one that the terminal stands at. -/
theorem Course.formed_at (W : net.WellFormed) (h : Course net m m') {τ : TerminalId}
    {terminal : Terminal} (hterminal : net.terminal? τ = some terminal) {t : TokenId}
    (hτ : .formed τ t ∈ m'.events.toList) : .formed τ t ∈ m.events.toList ∨
      ∃ n before after, terminal.node = some n ∧ Makes net m m' n t before after := by
  refine (h.formed hτ).imp_right ?_
  rintro ⟨n, before, after, hn, M⟩
  obtain ⟨terminal', hterminal', hnode⟩ := W.terminals.1 hn
  cases hterminal.symm.trans hterminal'
  exact ⟨n, before, after, hnode, M⟩

/-- The token has a new number. -/
theorem Course.formed_new (h : Course net m m') {τ : TerminalId} {t : TokenId}
    (hτ : .formed τ t ∈ m'.events.toList) :
    .formed τ t ∈ m.events.toList ∨ m.nextToken ≤ t := by
  refine (h.formed hτ).imp_right ?_
  rintro ⟨n, before, after, -, M⟩
  exact M.number ▸ M.hither.survive.1

end RuleNet.Matching
