/-
  Evaluation looks at what the memories of a branch hold, and at nothing else of the network.

  * `evaluate_congr`: branches that add the same at every step have the same matches.
  * `NodeKind.extensions_congr`: a node adds the same where its memory holds the same.
  * `Network.Fits.feed`: the memory of a node that does what a step asks for.
-/
import RuleNet.Proofs.Matching.Evaluate
import RuleNet.Proofs.Network.Drawn

namespace RuleNet

theorem forall₂_mem_right {α β : Type} {R : α → β → Prop} {xs : List α} {ys : List β}
    (h : List.Forall₂ R xs ys) {y : β} (hy : y ∈ ys) : ∃ x ∈ xs, R x y := by
  induction h with
  | nil => cases hy
  | cons hR _ ih =>
    rcases List.mem_cons.1 hy with rfl | hy
    · exact ⟨_, List.mem_cons_self, hR⟩
    · obtain ⟨x, hx, hxy⟩ := ih hy
      exact ⟨x, List.mem_cons_of_mem _ hx, hxy⟩

variable {store : WorkingMemory} {members members' : AlphaId → IdSet}

/-- Branches that add the same at every step have the same matches. -/
theorem evaluate_congr {branch branch' : List NodeKind}
    (h : List.Forall₂ (fun kind kind' : NodeKind => ∀ μ,
      kind'.extensions store members' μ = kind.extensions store members μ) branch branch') :
    evaluate store members' branch' = evaluate store members branch := by
  unfold evaluate
  generalize [[]] = found
  induction h generalizing found with
  | nil => rfl
  | cons hkind _ ih =>
    rw [List.foldl_cons, List.foldl_cons, ih]
    simp only [hkind]

theorem Match.partners_congr {feed feed' : Feed} (hmembers : members' feed'.alpha = members feed.alpha)
    (htests : feed'.tests = feed.tests) (hindex : feed'.index = feed.index) (μ : Match) :
    μ.partners store members' feed' = μ.partners store members feed := by
  have haccepts : μ.accepts store feed' = μ.accepts store feed :=
    funext fun i => by rw [Match.accepts, Match.accepts, htests, hindex]
  rw [Match.partners, Match.partners, hmembers, haccepts]

/-- A node adds the same where its memory holds the same. -/
theorem NodeKind.extensions_congr {kind : NodeKind}
    (h : ∀ feed, kind.feed? = some feed → members' feed.alpha = members feed.alpha) (μ : Match) :
    kind.extensions store members' μ = kind.extensions store members μ := by
  cases kind with
  | join feed => simp only [extensions, Match.partners_congr (h feed rfl) rfl rfl μ]
  | absent feed => simp only [extensions, Match.partners_congr (h feed rfl) rfl rfl μ]
  | present feed => simp only [extensions, Match.partners_congr (h feed rfl) rfl rfl μ]
  | accumulate feed fold having =>
    simp only [extensions, Match.folded?, Match.partners_congr (h feed rfl) rfl rfl μ]
  | predicate p places => rfl

/-- Nodes that are fed do the same only if they are of one kind. -/
theorem NodeKind.eq_of_same {kind kind' : NodeKind} (h : kind.same kind' = true) {feed : Feed}
    (hf : kind'.feed? = some feed) : kind = kind' := by
  cases kind <;> cases kind' <;> cases hf <;>
    simp only [same, decide_eq_true_eq, Bool.false_eq_true] at h
  · rw [h]
  · rw [h]
  · rw [h]
  · obtain ⟨rfl, rfl, rfl⟩ := h
    rfl

/-- Nodes that do the same are fed the same. -/
theorem NodeKind.feed?_of_same {kind kind' : NodeKind} (h : kind.same kind' = true) :
    kind'.feed? = kind.feed? := by
  cases kind <;> cases kind' <;>
    simp only [same, decide_eq_true_eq, Bool.false_eq_true] at h
  all_goals simp [feed?, h]

/-- The memory of a node that does what a step asks for. -/
theorem Network.Fits.feed {net : Network} {sketch : Sketch} {kind : NodeKind}
    (h : net.Fits sketch kind) {feed : Feed} (hf : kind.feed? = some feed) :
    ∃ supply, sketch.supply? = some supply ∧ net.Supplies feed.alpha supply := by
  obtain ⟨a, hsame, hs⟩ := h
  have hsketch : (sketch.kind a).feed? = some feed := by rw [NodeKind.eq_of_same hsame hf, hf]
  obtain ⟨rfl, supply, hsupply⟩ := Sketch.feed?_kind a hsketch
  exact ⟨supply, hsupply, hs supply hsupply⟩

end RuleNet
