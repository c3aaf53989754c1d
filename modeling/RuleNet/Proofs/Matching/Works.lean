/-
  What holds along whatever nodes do.

  When facts come and go, nodes write down what they find, make tokens and take tokens away. What
  holds along each of these steps holds along everything that is made of them.

  * `Matching.Fosters`, `Matching.Carries`: relations of matchings that hold along such steps, where
    tokens are only made and where they are taken away as well.
  * `Matching.Fosters.emit`, `Matching.Carries.delete`: they hold where a token is made or taken away
    with everything below it.
  * `Matching.Carries.assertRight`, `Matching.Carries.retractRight`, `Matching.Carries.endUpdate`: and
    where nodes are told of a fact, or an update ends.
  * `AlphasKept`, `carries_alphasKept`: alpha memories stay as they are along all of them.
-/
import RuleNet.Matching.Facts

namespace RuleNet.Matching

/-- A relation of matchings that holds wherever nodes write or a token is made, so that it holds along
    whatever is made of such steps. -/
structure Fosters (net : Network) (R : Matching → Matching → Prop) : Prop where
  refl : ∀ m, R m m
  trans : ∀ {m m' m''}, R m m' → R m' m'' → R m m''
  write : ∀ (m : Matching) (nodes : Std.ExtTreeMap NodeId NodeMemory)
    (deferred : Option (Std.ExtTreeSet (NodeId × TokenId) dictionary)),
    R m { m with nodes, deferred }
  addToken : ∀ (m : Matching) n parent e, R m (m.addToken net n parent e)

/-- A relation that holds where a token goes as well. -/
structure Carries (net : Network) (R : Matching → Matching → Prop) : Prop extends
    Fosters net R where
  dropToken : ∀ (m : Matching) t, R m (m.dropToken net t)

/-! ## Growing -/

namespace Fosters

variable {net : Network} {R : Matching → Matching → Prop} (C : Fosters net R)
include C

/-- What holds along every step holds along all of them. -/
theorem foldl {α : Type} {f : Matching → α → Matching} (hf : ∀ m a, R m (f m a)) (items : List α)
    (m : Matching) : R m (items.foldl f m) := by
  induction items generalizing m with
  | nil => exact C.refl m
  | cons a rest ih => exact C.trans (hf m a) (ih (f m a))

theorem setNode (m : Matching) (n : NodeId) (memory : NodeMemory) : R m (m.setNode n memory) :=
  C.write m _ m.deferred

theorem arrive (m : Matching) (store : WorkingMemory) (n : NodeId) (left : TokenId) :
    R m (m.arrive net store n left).2 := by
  unfold Matching.arrive
  split
  · exact C.refl m
  · dsimp only
    split
    · exact C.write m _ m.deferred
    · exact C.write m _ m.deferred
    · exact C.write m _ m.deferred
    · split
      · exact C.write m _ _
      · exact C.write m _ m.deferred
    · exact C.write m _ m.deferred

/-- A node makes a token, and all nodes below go on from it. -/
theorem emit (store : WorkingMemory) (n : NodeId) (parent : TokenId) (e : Extension)
    (m : Matching) : R m (m.emit net store n parent e) := by
  obtain ⟨k, hk⟩ : ∃ k, net.nodes.size - n = k := ⟨_, rfl⟩
  induction k using Nat.strongRecOn generalizing n parent e m with
  | ind k ih =>
    rw [Matching.emit]
    refine C.trans (C.addToken m n parent e) (C.foldl (fun m child => ?_) _ _)
    refine C.trans (C.arrive m store child.1 _) (C.foldl (fun m e => ?_) _ _)
    exact ih _ (hk ▸ Nat.sub_lt_sub_left (Nat.lt_trans child.2.1 child.2.2) child.2.1) _ _ e m rfl

theorem activateLeft (store : WorkingMemory) (n : NodeId) (left : TokenId) (m : Matching) :
    R m (m.activateLeft net store n left) := by
  unfold Matching.activateLeft
  exact C.trans (C.arrive m store n left) (C.foldl (fun m e => C.emit store n left e m) _ _)

end Fosters

namespace Carries

variable {net : Network} {R : Matching → Matching → Prop} (C : Carries net R)
include C

/-! ## Going -/

theorem delete (t : TokenId) (m : Matching) : R m (m.delete net t) := C.foldl C.dropToken _ m

theorem withdraw (n : NodeId) (left : TokenId) (m : Matching) : R m (m.withdraw net n left) := by
  unfold Matching.withdraw
  dsimp only
  split
  · exact C.refl m
  · exact C.trans (C.setNode m n _) (C.delete _ _)

/-! ## Results -/

theorem renew (store : WorkingMemory) (n : NodeId) (left : TokenId) (result : Option Value)
    (m : Matching) : R m (m.renew net store n left result) := by
  unfold Matching.renew
  dsimp only
  split
  · exact C.trans (C.withdraw n left m) (C.emit store n left _ _)
  · exact C.withdraw n left m

theorem refresh (store : WorkingMemory) (n : NodeId) (left : TokenId) (m : Matching) :
    R m (m.refresh net store n left) := by
  unfold Matching.refresh
  split
  · exact C.write m m.nodes _
  · split
    · exact C.renew ..
    · exact C.refl m

theorem settle (store : WorkingMemory) (n : NodeId) (left : TokenId) (m : Matching) :
    R m (m.settle net store n left) := by
  unfold Matching.settle
  split
  · dsimp only
    split
    · exact C.refl m
    · exact C.renew ..
  · exact C.refl m

/-- The marked results are made anew. -/
theorem endUpdate (store : WorkingMemory) (m : Matching) : R m (m.endUpdate net store) := by
  unfold Matching.endUpdate
  split
  · exact C.refl m
  · exact C.trans (C.write m m.nodes none) (C.foldl (fun m (result : NodeId × TokenId) =>
      C.settle store result.1 result.2 m) _ _)

/-! ## Facts at nodes -/

theorem meet (store : WorkingMemory) (n : NodeId) (kind : NodeKind) (h : Handle) (m : Matching)
    (left : TokenId) : R m (m.meet net store n kind h left) := by
  cases kind with
  | join feed => exact C.emit ..
  | absent feed =>
    unfold Matching.meet
    dsimp only
    split
    · exact C.trans (C.setNode m n _) (C.withdraw ..)
    · exact C.setNode m n _
  | present feed =>
    unfold Matching.meet
    dsimp only
    split
    · exact C.trans (C.setNode m n _) (C.emit ..)
    · exact C.setNode m n _
  | accumulate feed fold having =>
    unfold Matching.meet
    dsimp only
    split
    · exact C.refl m
    · exact C.trans (C.setNode m n _) (C.refresh ..)
  | predicate p scope => exact C.refl m

/-- A node is told of a fact that has come. -/
theorem assertRight (store : WorkingMemory) (h : Handle) (m : Matching) (n : NodeId) :
    R m (m.assertRight net store h n) := by
  unfold Matching.assertRight
  split
  · exact C.refl m
  · split
    · exact C.refl m
    · exact C.foldl (C.meet store n _ h) _ m

theorem part (store : WorkingMemory) (n : NodeId) (kind : NodeKind) (h : Handle) (m : Matching)
    (left : TokenId) : R m (m.part net store n kind h left) := by
  cases kind with
  | join feed => exact C.refl m
  | predicate p scope => exact C.refl m
  | accumulate feed fold having =>
    unfold Matching.part
    dsimp only
    split
    · exact C.refl m
    · split
      · exact C.trans (C.setNode m n _) (C.refresh ..)
      · exact C.refl m
  | absent feed =>
    unfold Matching.part
    dsimp only
    split
    · exact C.refl m
    · split
      · exact C.setNode m n _
      · exact C.trans (C.setNode m n _) (C.emit ..)
  | present feed =>
    unfold Matching.part
    dsimp only
    split
    · exact C.refl m
    · split
      · exact C.setNode m n _
      · exact C.trans (C.setNode m n _) (C.withdraw ..)

/-- A node is told of a fact that has gone. -/
theorem retractRight (store : WorkingMemory) (h : Handle) (m : Matching) (n : NodeId) :
    R m (m.retractRight net store h n) := by
  unfold Matching.retractRight
  split
  · exact C.refl m
  · exact C.trans (C.setNode m n _) (C.foldl (C.part store n _ h) _ _)

/-- Tokens go, and then nodes are told of a fact that has gone. -/
theorem release (store : WorkingMemory) (h : Handle) (doomed : List TokenId) (told : List NodeId)
    (m : Matching) : R m (told.foldl (Matching.retractRight net store h)
      (doomed.foldl (fun m t => m.delete net t) m)) :=
  C.trans (C.foldl (fun m t => C.delete t m) doomed m) (C.foldl (C.retractRight store h) told _)

end Carries

end RuleNet.Matching

namespace RuleNet

/-- The alpha memories are as they were. -/
structure AlphasKept (m m' : Matching) : Prop where
  alphas : m'.alphas = m.alphas
  memoriesOf : m'.memoriesOf = m.memoriesOf

namespace AlphasKept

variable {m m' m'' : Matching}

theorem refl : AlphasKept m m := ⟨rfl, rfl⟩

theorem trans (h : AlphasKept m m') (h' : AlphasKept m' m'') : AlphasKept m m'' :=
  ⟨h'.alphas.trans h.alphas, h'.memoriesOf.trans h.memoriesOf⟩

/-- A step that touches no alpha memory goes before. -/
theorem after {m₁ : Matching} (h : AlphasKept m₁ m') (ha : m₁.alphas = m.alphas)
    (hm : m₁.memoriesOf = m.memoriesOf) : AlphasKept m m' :=
  ⟨h.alphas.trans ha, h.memoriesOf.trans hm⟩

theorem addToken (m : Matching) (net : Network) (n : NodeId) (parent : TokenId)
    (e : Matching.Extension) : AlphasKept m (m.addToken net n parent e) := by
  unfold Matching.addToken
  dsimp only
  split <;> exact ⟨rfl, rfl⟩

theorem removeLefts (cs : List NodeId) (t : TokenId) (m : Matching) :
    AlphasKept m (cs.foldl (fun m child => m.removeLeft child t) m) := by
  induction cs generalizing m with
  | nil => exact refl
  | cons child rest ih => exact (ih _).after rfl rfl

theorem dropToken (net : Network) (m : Matching) (t : TokenId) :
    AlphasKept m (m.dropToken net t) := by
  unfold Matching.dropToken
  split
  · exact refl
  · dsimp only
    split
    · exact ⟨rfl, rfl⟩
    · obtain ⟨ha, hm⟩ := removeLefts (net.childrenOf _) t (Matching.note
        { m with tokens := m.tokens.erase t } ((net.terminalsOf _).map fun τ => .broken τ t))
      exact ⟨ha, hm⟩

end AlphasKept

open AlphasKept in
/-- Whatever nodes do keeps the alpha memories. -/
theorem carries_alphasKept (net : Network) : Matching.Carries net AlphasKept where
  refl _ := refl
  trans := trans
  write _ _ _ := ⟨rfl, rfl⟩
  addToken m n parent e := addToken m net n parent e
  dropToken := dropToken net

/-- A matching starts with empty memories. -/
theorem AlphasKept.start (net : Network) (store : WorkingMemory) :
    AlphasKept .empty (Matching.start net store) := by
  have C := carries_alphasKept net
  unfold Matching.start
  exact (C.foldl (fun m n => C.activateLeft store n rootToken m) _ _).after rfl rfl

end RuleNet
