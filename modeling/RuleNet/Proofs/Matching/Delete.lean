/-
  How a token goes with everything below it.

  * `Matching.LowestFirst`: a list of tokens in which no token comes before one that it is above.
  * `Matching.lowestFirst_subtree`: the tokens below a token are listed so.
  * `Sound.delete`, `Sound.withdraw`: a token goes with all of them, and a node takes back what it
    passed on.
-/
import RuleNet.Proofs.Matching.Wither

namespace RuleNet

open Matching (Extension)

namespace Matching

/-! ## Subtrees -/

/-- Each token of a list comes when all its children are gone. -/
def LowestFirst (m : Matching) (gone : TokenId → Prop) : List TokenId → Prop
  | [] => True
  | t :: rest => (∀ c o, m.origin? c = some o → o.parent = some t → gone c) ∧
    m.LowestFirst (fun s => gone s ∨ s = t) rest

section
variable {net : Network} {m : Matching}

theorem LowestFirst.mono {gone gone' : TokenId → Prop} {ts : List TokenId}
    (h : m.LowestFirst gone ts) (hle : ∀ s, gone s → gone' s) : m.LowestFirst gone' ts := by
  induction ts generalizing gone gone' with
  | nil => trivial
  | cons t rest ih =>
    exact ⟨fun c o ho hp => hle c (h.1 c o ho hp), ih h.2 fun s => Or.imp_left (hle s)⟩

theorem LowestFirst.append {gone : TokenId → Prop} {ts us : List TokenId}
    (h : m.LowestFirst gone ts) (h' : m.LowestFirst (fun s => gone s ∨ s ∈ ts) us) :
    m.LowestFirst gone (ts ++ us) := by
  induction ts generalizing gone with
  | nil => exact h'.mono fun s hs => hs.resolve_right List.not_mem_nil
  | cons t rest ih =>
    refine ⟨h.1, ih h.2 (h'.mono fun s hs => ?_)⟩
    rw [or_assoc, ← List.mem_cons]
    exact hs

/-- The subtree of a token whose children are all younger. -/
theorem subtree_eq_of_later {t : TokenId} {token : Token} (h : m.tokens[t]? = some token)
    (hlater : ∀ c ∈ token.children, t < c ∧ c < m.nextToken) :
    m.subtree t = token.children.flatMap m.subtree ++ [t] := by
  have hmap : (m.childrenOf t).map Subtype.val = token.children := by
    unfold childrenOf
    simp only [h]
    generalize token.children = cs at hlater
    induction cs with
    | nil => rfl
    | cons c rest ih =>
      have hc := hlater c List.mem_cons_self
      rw [List.filterMap_cons, dif_pos hc]
      simp only [List.map_cons]
      rw [ih fun d hd => hlater d (List.mem_cons_of_mem _ hd)]
  have hlive : m.tokens.contains t = true := by
    rw [Std.ExtTreeMap.contains_eq_isSome_getElem?, h]
    rfl
  rw [subtree, if_pos hlive, ← hmap, List.flatMap_map]

variable (F : m.Forest net)
include F

theorem subtree_eq {t : TokenId} {token : Token} (h : m.tokens[t]? = some token) :
    m.subtree t = token.children.flatMap m.subtree ++ [t] := by
  refine subtree_eq_of_later h fun c hc => ?_
  obtain ⟨o, ho, hp⟩ := F.children.1 ⟨token, h, hc⟩
  exact ⟨F.lt_of_parent ho hp, F.lt_next ho⟩

/-- A property of all live tokens, from the lowest upwards. -/
theorem Forest.upward {P : TokenId → Prop}
    (h : ∀ t token, m.tokens[t]? = some token → (∀ c ∈ token.children, P c) → P t) :
    ∀ t o, m.origin? t = some o → P t := by
  have hbound : ∀ k t o, m.nextToken ≤ t + k → m.origin? t = some o → P t := by
    intro k
    induction k with
    | zero => exact fun t o hle ho => absurd (F.lt_next ho) (Nat.not_lt.2 hle)
    | succ k ih =>
      intro t o hle ho
      obtain ⟨token, htoken, -⟩ := origin?_eq_some.1 ho
      refine h t token htoken fun c hc => ?_
      obtain ⟨oc, hoc, hp⟩ := F.children.1 ⟨token, htoken, hc⟩
      refine ih c oc (Nat.le_trans hle ?_) hoc
      rw [Nat.add_succ, ← Nat.succ_add]
      exact Nat.add_le_add_right (F.lt_of_parent hoc hp) k
  exact fun t o ho => hbound m.nextToken t o (Nat.le_add_left _ _) ho

/-- The tokens below a token are listed from the lowest upwards, and the token is the last. -/
theorem lowestFirst_subtree {t : TokenId} {o : Origin} (ho : m.origin? t = some o)
    (gone : TokenId → Prop) : m.LowestFirst gone (m.subtree t) ∧ t ∈ m.subtree t := by
  refine F.upward (P := fun t => ∀ gone, m.LowestFirst gone (m.subtree t) ∧ t ∈ m.subtree t)
    ?_ t o ho gone
  intro t token htoken ih gone
  rw [subtree_eq F htoken]
  have hall : ∀ (cs : List TokenId) (gone : TokenId → Prop), (∀ c ∈ cs, c ∈ token.children) →
      m.LowestFirst gone (cs.flatMap m.subtree) := by
    intro cs
    induction cs with
    | nil => exact fun _ _ => trivial
    | cons c rest ihcs =>
      intro gone hcs
      rw [List.flatMap_cons]
      exact (ih c (hcs c List.mem_cons_self) gone).1.append
        (ihcs _ fun d hd => hcs d (List.mem_cons_of_mem c hd))
  refine ⟨(hall _ gone fun _ => id).append ⟨fun c oc hoc hp => Or.inr ?_, trivial⟩,
    List.mem_append_right _ (List.mem_singleton_self t)⟩
  obtain ⟨token', htoken', hc⟩ := F.children.2 ⟨oc, hoc, hp⟩
  obtain rfl := Option.some.inj (htoken.symm.trans htoken')
  exact List.mem_flatMap.2 ⟨c, hc, (ih c hc gone).2⟩

/-- Apart from a token itself, its subtree has with each token its parent. -/
theorem parent_of_mem_subtree {t : TokenId} {o : Origin} (ho : m.origin? t = some o)
    {s : TokenId} (hs : s ∈ m.subtree t) :
    s = t ∨ ∃ os p, m.origin? s = some os ∧ os.parent = some p ∧ p ∈ m.subtree t := by
  refine F.upward (P := fun t => ∀ s ∈ m.subtree t,
    s = t ∨ ∃ os p, m.origin? s = some os ∧ os.parent = some p ∧ p ∈ m.subtree t) ?_ t o ho s hs
  intro t token htoken ih s hs
  rw [subtree_eq F htoken] at hs ⊢
  rcases List.mem_append.1 hs with hs | hs
  · obtain ⟨c, hc, hs⟩ := List.mem_flatMap.1 hs
    obtain ⟨oc, hoc, hp⟩ := F.children.1 ⟨token, htoken, hc⟩
    right
    rcases ih c hc s hs with rfl | ⟨os, p, hos, hp', hpmem⟩
    · exact ⟨oc, t, hoc, hp, List.mem_append_right _ (List.mem_singleton_self t)⟩
    · exact ⟨os, p, hos, hp', List.mem_append_left _ (List.mem_flatMap.2 ⟨c, hc, hpmem⟩)⟩
  · exact Or.inl (List.mem_singleton.1 hs)

/-- The tokens of a subtree stand at the node of its top or below. -/
theorem node_of_mem_subtree {t : TokenId} {o : Origin} (ho : m.origin? t = some o) {n : NodeId}
    (hn : o.node = some n) {s : TokenId} (hs : s ∈ m.subtree t) :
    t ≤ s ∧ ∃ os k, m.origin? s = some os ∧ os.node = some k ∧ net.Within n k := by
  induction s using Nat.strongRecOn with
  | ind s ih =>
    rcases parent_of_mem_subtree F ho hs with rfl | ⟨os, p, hos, hp, hpmem⟩
    · exact ⟨Nat.le_refl _, o, n, ho, hn, .self⟩
    · have hne : s ≠ rootToken := by
        rintro rfl
        obtain rfl := Option.some.inj (F.root.symm.trans hos)
        cases hp
      obtain ⟨p', k, node, above, hp', hk, hnode, hlt, habove, heq, -⟩ := F.made hos hne
      obtain rfl := Option.some.inj (hp.symm.trans hp')
      obtain ⟨hle, op, j, hop, hj, hw⟩ := ih p hlt hpmem
      obtain rfl := Option.some.inj (habove.symm.trans hop)
      exact ⟨Nat.le_trans hle (Nat.le_of_lt hlt), os, k, hos, hk, .step hnode (heq.symm.trans hj) hw⟩

end

end Matching

/-! ## Taking tokens away -/

/-- The spots of a step that makes nothing. -/
def Spots.none : Spots := fun _ _ => False

/-- A token has gone with everything below it. -/
structure Deleted (net : Network) (store : WorkingMemory) (x : Ledger) (n : NodeId)
    (left t : TokenId) (m m' : Matching) : Prop where
  sound : Sound net store x m'
  moves : Moves net (.at n left) .none m m'
  about : m'.about n left = m.about n left
  made : ∀ {t' e}, m'.Made n left t' e ↔ m.Made n left t' e ∧ t' ≠ t

section
variable {net : Network} {store : WorkingMemory} {x : Ledger} {m : Matching} {n : NodeId}
  {left t : TokenId} {e : Extension}

/-- Tokens go one after the other, if no node has to see to any that is left. -/
theorem Sound.dropAll (W : net.WellFormed) {m₀ : Matching} {ts : List TokenId} {Q : Spots}
    (gone : TokenId → Prop) (S : Sound net store x m)
    (hgone : ∀ {t o}, m.origin? t = some o ↔ m₀.origin? t = some o ∧ ¬ gone t)
    (hlow : m₀.LowestFirst gone ts) (hbelow : ∀ s ∈ ts, ∀ c, x.busy c s)
    (hmade : ∀ s ∈ ts, ∃ k left e, m₀.Made k left s e ∧ x.busy k left ∧ net.Touches Q k left)
    {m' : Matching} (hm' : ts.foldl (Matching.dropToken net) m = m') :
    Sound net store x m' ∧ Moves net Q .none m m' ∧
    (∀ {t o}, m'.origin? t = some o ↔ m₀.origin? t = some o ∧ ¬ (gone t ∨ t ∈ ts)) ∧
    ∀ {k left}, left ∉ ts → m'.about k left = m.about k left := by
  induction ts generalizing m gone with
  | nil =>
    subst hm'
    exact ⟨S, .refl S.forest False.elim, by simp [hgone], fun _ => rfl⟩
  | cons s rest ih =>
    have hnext : ∀ {m₁ : Matching}, m.dropToken net s = m₁ → Sound net store x m₁ →
        Moves net Q .none m m₁ →
        (∀ {t o}, m₁.origin? t = some o ↔ m₀.origin? t = some o ∧ ¬ (gone t ∨ t = s)) →
        (∀ {k left}, left ≠ s → m₁.about k left = m.about k left) →
        Sound net store x m' ∧ Moves net Q .none m m' ∧
        (∀ {t o}, m'.origin? t = some o ↔ m₀.origin? t = some o ∧ ¬ (gone t ∨ t ∈ s :: rest)) ∧
        ∀ {k left}, left ∉ s :: rest → m'.about k left = m.about k left := by
      intro m₁ hm₁ S₁ M₁ horigin habout
      obtain ⟨S', M', horigin', habout'⟩ := ih _ S₁ horigin hlow.2
        (fun s hs => hbelow s (List.mem_cons_of_mem _ hs))
        (fun s hs => hmade s (List.mem_cons_of_mem _ hs)) (hm₁ ▸ hm')
      refine ⟨S', M₁.trans M', fun {t o} => ?_, fun {k left} hno => ?_⟩
      · rw [horigin', List.mem_cons, or_assoc]
      · rw [List.mem_cons, not_or] at hno
        rw [habout' hno.2, habout hno.1]
    obtain ⟨k, p, e, ⟨depth, hs⟩, hb, hQ⟩ := hmade s List.mem_cons_self
    by_cases hold : gone s
    · -- it has gone before: nothing happens
      have hnone : m.tokens[s]? = none := by
        cases htoken : m.tokens[s]? with
        | none => rfl
        | some token =>
          have ho : m.origin? s = some token.origin := by rw [Matching.origin?, htoken]; rfl
          exact absurd hold (hgone.1 ho).2
      have hsame : m.dropToken net s = m := by simp only [Matching.dropToken, hnone]
      refine hnext hsame S (.refl S.forest False.elim) (fun {t o} => ?_) fun _ => rfl
      rw [hgone]
      refine and_congr_right fun _ => not_congr ⟨Or.inl, fun h => h.elim id ?_⟩
      rintro rfl
      exact hold
    · have ho := hgone.2 ⟨hs, hold⟩
      have hleaf : ∀ c o, m.origin? c = some o → o.parent ≠ some s := fun c o hc hp => by
        obtain ⟨hc, hlive⟩ := hgone.1 hc
        exact hlive (hlow.1 c o hc hp)
      obtain ⟨S₁, M₁, horigin, habout⟩ := S.dropToken W ho hleaf hb
        (fun c _ => hbelow s List.mem_cons_self c) hQ (B := .none) False.elim
      refine hnext rfl S₁ M₁ (fun {t o} => ?_) habout
      rw [horigin, hgone, not_or, and_assoc]

/-- A token goes with everything below it; only the node that made it has to see to it. -/
theorem Sound.delete (W : net.WellFormed) (S : Sound net store x m) (hmade : m.Made n left t e)
    (hb : x.busy n left) : Deleted net store x n left t m (m.delete net t) := by
  have F := S.forest
  obtain ⟨depth, ht⟩ := hmade
  have hlt : left < t := F.lt_of_parent ht rfl
  obtain ⟨hlow, hmem⟩ := Matching.lowestFirst_subtree F ht fun _ => False
  have hnode := fun {s} => Matching.node_of_mem_subtree F ht rfl (s := s)
  have hleft : left ∉ m.subtree t := fun h => Nat.lt_irrefl _ (Nat.lt_of_lt_of_le hlt (hnode h).1)
  have hS : Sound net store { x with busy := fun k l => x.busy k l ∨ l ∈ m.subtree t } m :=
    S.mono ⟨rfl, rfl, rfl, id, id, id, id, Or.inl⟩
  obtain ⟨S', M, horigin, habout⟩ := hS.dropAll W (fun _ => False) (Q := .at n left)
    (fun {t o} => by rw [not_false_eq_true, and_true]) hlow (fun s hs c => Or.inr hs)
    (fun s hs => by
      rcases Matching.parent_of_mem_subtree F ht hs with rfl | ⟨os, p, hos, hp, hpmem⟩
      · exact ⟨n, left, e, ⟨depth, ht⟩, Or.inl hb, Or.inl ⟨rfl, rfl⟩⟩
      · obtain ⟨-, os', k, hos', hk, -⟩ := hnode hs
        obtain rfl := Option.some.inj (hos.symm.trans hos')
        obtain ⟨-, op, j, hop, hj, hw⟩ := hnode hpmem
        obtain ⟨p', k', node, above, hp', hk', hknode, -, habove, heq, -⟩ :=
          F.made hos (F.ne_root hos hk)
        obtain rfl := Option.some.inj (hp.symm.trans hp')
        obtain rfl := Option.some.inj (hk.symm.trans hk')
        obtain rfl := Option.some.inj (hop.symm.trans habove)
        exact ⟨k, p, os.step, Matching.made_of_origin hos hk hp, Or.inr hpmem,
          Or.inr ⟨n, left, ⟨rfl, rfl⟩, node, j, hknode, heq.symm.trans hj, hw⟩⟩)
    rfl
  refine ⟨S'.release x.busy fun {k node l} hk hl hbusy hnot => ?_, M, habout hleft,
    fun {t' e'} => ?_⟩
  · obtain ⟨o, ho, -⟩ := hl
    exact absurd (Or.inr (hbusy.resolve_left hnot)) (horigin.1 ho).2
  · constructor
    · rintro ⟨depth', ho⟩
      obtain ⟨ho, hno⟩ := horigin.1 ho
      refine ⟨⟨depth', ho⟩, ?_⟩
      rintro rfl
      exact hno (Or.inr hmem)
    · rintro ⟨⟨depth', ho⟩, hne⟩
      refine ⟨depth', horigin.2 ⟨ho, ?_⟩⟩
      rw [false_or]
      intro hs
      rcases Matching.parent_of_mem_subtree F ht hs with rfl | ⟨os, p, hos, hp, hpmem⟩
      · exact hne rfl
      · obtain rfl := Option.some.inj (ho.symm.trans hos)
        obtain rfl := Option.some.inj hp
        exact hleft hpmem

end

end RuleNet
