/-
  Results that are made anew are made once.

  When an update ends, the marked results are looked at in order of their nodes. What is made of one of
  them stands at its node or below, so it does not go with a result that is looked at later.

  * `Matching.Adds`: a step that makes tokens and takes none.
  * `Matching.Fresh`: all tokens stand that have been made since a number.
  * `Sound.fresh_settle`, `Sound.fresh_settleEach`: it stays so when results are looked at in order.
  * `Kept.lives_endUpdate`: all tokens stand that are made when an update ends.
-/
import RuleNet.Proofs.Matching.Course
import RuleNet.Proofs.Matching.Works

namespace RuleNet

namespace Matching

/-! ## Steps that only add -/

/-- A step that makes tokens and takes none. -/
structure Adds (m m' : Matching) : Prop where
  next : m.nextToken ≤ m'.nextToken
  persist : ∀ {t}, m.Lives t → m'.Lives t
  fills : ∀ {t}, m.nextToken ≤ t → t < m'.nextToken → m'.Lives t

theorem fosters_adds (net : Network) : Fosters net Adds where
  refl m := ⟨Nat.le_refl _, id, fun hle hlt => absurd hlt (Nat.not_lt.2 hle)⟩
  trans {m m' m''} h h' := by
    refine ⟨Nat.le_trans h.next h'.next, fun ht => h'.persist (h.persist ht), fun {t} hle hlt => ?_⟩
    by_cases hold : t < m'.nextToken
    · exact h'.persist (h.fills hle hold)
    · exact h'.fills (Nat.not_lt.1 hold) hlt
  write m nodes deferred := ⟨Nat.le_refl _, id, fun hle hlt => absurd hlt (Nat.not_lt.2 hle)⟩
  addToken m n parent e := by
    have hlives : (m.addToken net n parent e).Lives m.nextToken :=
      ⟨_, (origin?_addToken e _).trans (if_pos rfl)⟩
    refine ⟨(nextToken_addToken e).symm ▸ Nat.le_succ _, fun {t} ht => ?_, fun {t} hle hlt => ?_⟩
    · obtain ⟨o, ho⟩ := ht
      by_cases heq : t = m.nextToken
      · exact heq ▸ hlives
      · exact ⟨o, by rw [origin?_addToken, if_neg heq]; exact ho⟩
    · rw [nextToken_addToken] at hlt
      obtain rfl : t = m.nextToken := Nat.le_antisymm (Nat.le_of_lt_succ hlt) hle
      exact hlives

/-- A node makes its result anew: only the old one is taken. -/
theorem adds_renew (net : Network) (store : WorkingMemory) (n : NodeId) (left : TokenId)
    (result : Option Value) (m : Matching) :
    Adds (m.withdraw net n left) (m.renew net store n left result) := by
  unfold renew
  dsimp only
  split
  · exact (fosters_adds net).emit store n left _ _
  · exact (fosters_adds net).refl _

/-! ## New tokens -/

/-- All tokens stand that have been made since a number. Those of them whose parents are older were made
    at spots that have been looked at. -/
structure Fresh (start : TokenId) (done : Spots) (m : Matching) : Prop where
  next : start ≤ m.nextToken
  lives : ∀ {t}, start ≤ t → t < m.nextToken → m.Lives t
  born : ∀ {n left t e}, start ≤ t → m.Made n left t e → start ≤ left ∨ done n left

namespace Fresh

variable {net : Network} {start : TokenId} {done : Spots} {m : Matching} {n : NodeId}
  {left : TokenId}

theorem refl (F : m.Forest net) (done : Spots) : m.Fresh m.nextToken done where
  next := Nat.le_refl _
  lives hle hlt := absurd hlt (Nat.not_lt.2 hle)
  born hle hmade := by
    obtain ⟨depth, ho⟩ := hmade
    exact absurd (F.lt_next ho) (Nat.not_lt.2 hle)

theorem mono {more : Spots} (h : m.Fresh start done) (hmore : ∀ {n left}, done n left → more n left) :
    m.Fresh start more :=
  ⟨h.next, h.lives, fun hle hmade => (h.born hle hmade).imp_right hmore⟩

variable (W : net.WellFormed) (F : m.Forest net) (h : m.Fresh start done)
  (hdone : ∀ {n' left'}, done n' left' → n' ≤ n)
include W F h hdone

/-- Below an old token stand no new ones, while nothing below its node has been looked at. -/
theorem lt_of_mem_subtree {t : TokenId} {o : Origin} (ho : m.origin? t = some o)
    (hn : o.node = some n) (hold : t < start) {s : TokenId} (hs : s ∈ m.subtree t) : s < start := by
  induction s using Nat.strongRecOn with
  | ind s ih =>
    rcases parent_of_mem_subtree F ho hs with rfl | ⟨os, p, hos, hp, hpmem⟩
    · exact hold
    · refine Nat.lt_of_not_le fun hle => ?_
      have hplt := ih p (F.lt_of_parent hos hp) hpmem
      obtain ⟨-, os', k, hos', hk, -⟩ := node_of_mem_subtree F ho hn hs
      obtain rfl := Option.some.inj (hos.symm.trans hos')
      obtain ⟨-, op, j, hop, hj, hw⟩ := node_of_mem_subtree F ho hn hpmem
      -- its node would have been looked at already, but it stands below
      rcases h.born hle (made_of_origin hos hk hp) with hnew | hlooked
      · exact Nat.not_lt.2 hnew hplt
      · obtain ⟨p', k', node, above, hp', hk', hnode, -, habove, heq, -⟩ :=
          F.made hos (F.ne_root hos hk)
        obtain rfl := Option.some.inj (hp.symm.trans hp')
        obtain rfl := Option.some.inj (hk.symm.trans hk')
        obtain rfl := Option.some.inj (hop.symm.trans habove)
        have hlt := (W.parent hnode (heq.symm.trans hj)).1
        exact Nat.not_lt.2 (hdone hlooked) (Nat.lt_of_le_of_lt (W.le_of_within hw) hlt)

/-- A node takes back an old result, and all new tokens stay. -/
theorem withdraw (hold : left < start) (hleft : ¬ done n left)
    (hout : ∀ t, (m.about n left).output = some t → ∃ e, m.Made n left t e) :
    (m.withdraw net n left).nextToken = m.nextToken ∧
    ∀ t, start ≤ t → (m.withdraw net n left).origin? t = m.origin? t := by
  cases hsome : (m.node n).outputs[left]? with
  | none =>
    have hsame : m.withdraw net n left = m := by simp only [Matching.withdraw, hsome]
    rw [hsame]
    exact ⟨rfl, fun t _ => rfl⟩
  | some out =>
    simp only [Matching.withdraw, hsome]
    obtain ⟨e, hmade⟩ := hout out hsome
    have hlt : out < start := Nat.lt_of_not_le fun hle =>
      (h.born hle hmade).elim (fun hnew => Nat.not_lt.2 hnew hold) hleft
    obtain ⟨depth, ho⟩ := hmade
    generalize hm₁ : m.setNode n { m.node n with outputs := (m.node n).outputs.erase left } = m₁
    have F₁ : m₁.Forest net := hm₁ ▸ F.congr rfl rfl
    have h₁ : m₁.Fresh start done := hm₁ ▸ ⟨h.next, h.lives, h.born⟩
    have hsame : m₁.origin? = m.origin? := hm₁ ▸ rfl
    have D := @drops_delete net m₁ out
    refine ⟨hm₁ ▸ D.nextToken, fun t hle => ?_⟩
    rw [D.origin, hsame, if_neg fun hs => Nat.not_lt.2 hle
      (h₁.lt_of_mem_subtree W F₁ hdone ((congrFun hsame out).trans ho) rfl hlt hs)]

end Fresh

end Matching

/-! ## Results that are looked at -/

section
variable {net : Network} {store : WorkingMemory} {x : Ledger} {m m' : Matching} {start : TokenId}
  {done : Spots} (W : net.WellFormed)
include W

/-- One result is looked at, and all new tokens stay. -/
theorem Sound.fresh_settle (S : Sound net store x m) (K : Stocked net store m) (hx : x.Quiet)
    {n : NodeId} {left : TokenId} (h : m.Fresh start done)
    (hdone : ∀ {n' left'}, done n' left' → n' ≤ n) (hold : left < start) (hleft : ¬ done n left)
    (hm' : m.settle net store n left = m') :
    m'.Fresh start fun n' left' => done n' left' ∨ Spots.at n left n' left' := by
  by_cases hres : ∃ node feed fold having, net.node? n = some node ∧
      node.kind = .accumulate feed fold having ∧ m.LiveAt left node.parent
  · obtain ⟨node, feed, fold, having, hn, hkind, hl⟩ := hres
    have hs := S.settled hn hl (hx.idle n left)
    rw [hkind] at hs
    obtain ⟨acc, output, marked, old, habout, -, -, hp, -⟩ := hs
    rw [S.settle_eq W hn hkind hl habout hp] at hm'
    split at hm'
    · exact hm' ▸ h.mono .inl
    · rw [show output = (m.about n left).output by rw [habout]] at hp
      obtain ⟨-, M, -⟩ := (S.mono (x.le_hold n left)).renew W K
        ⟨hx.filed, fun {c h} _ => hx.listed c h, hx.agree⟩ hn hkind hl (.inr ⟨rfl, rfl⟩) hp _ hm'
      have A := Matching.adds_renew net store n left ((m.matchOf left).gated? store having acc) m
      rw [hm'] at A
      obtain ⟨hnext, hstays⟩ := h.withdraw W S.forest hdone hold hleft fun t =>
        Passes.made_output hp
      refine ⟨Nat.le_trans h.next M.next, fun {t} hle hlt => ?_, fun {n' left' t e} hle hmade => ?_⟩
      · by_cases hbefore : t < m.nextToken
        · obtain ⟨o, ho⟩ := h.lives hle hbefore
          exact A.persist ⟨o, (hstays t hle).trans ho⟩
        · exact A.fills (hnext ▸ Nat.not_lt.1 hbefore) hlt
      · by_cases hbefore : t < m.nextToken
        · obtain ⟨depth, ho⟩ := hmade
          exact (h.born hle ⟨depth, M.survive hbefore ho⟩).imp_right .inl
        · rcases M.born (Nat.not_lt.1 hbefore) hmade with hat | ⟨hnew, -⟩
          · exact .inr (.inr hat)
          · exact .inl (Nat.le_trans h.next hnew)
  · rw [S.settle_nothing hres] at hm'
    exact hm' ▸ h.mono .inl

/-- Results of old left tokens are looked at in order of their nodes, and all new tokens stay. -/
theorem Sound.fresh_settleEach {results : List (NodeId × TokenId)} (S : Sound net store x m)
    (K : Stocked net store m) (hx : x.Quiet)
    (hclose : ∀ a b : Option Value, (a == b) = true → x.agree a b) (h : m.Fresh start done)
    (hdone : ∀ {n left}, done n left → ∀ r ∈ results, n ≤ r.1 ∧ (n, left) ≠ r)
    (hsorted : results.Pairwise fun r r' => r.1 ≤ r'.1 ∧ r ≠ r')
    (hold : ∀ r ∈ results, r.2 < start)
    (hm' : results.foldl (fun m result => m.settle net store result.1 result.2) m = m') :
    ∃ done, m'.Fresh start done := by
  induction results generalizing m x done with
  | nil => exact ⟨done, hm' ▸ h⟩
  | cons r rest ih =>
    obtain ⟨hfirst, hrest⟩ := List.pairwise_cons.1 hsorted
    obtain ⟨S₁, M⟩ := S.settleOne W K hx hclose (rfl : m.settle net store r.1 r.2 = _)
    have h₁ := S.fresh_settle W K hx h (fun hd => (hdone hd r List.mem_cons_self).1)
      (hold r List.mem_cons_self) (fun hd => (hdone hd r List.mem_cons_self).2 rfl) rfl
    refine ih S₁ (K.of_alphas M.alphas) ⟨hx.filed, hx.listed, hx.idle, hx.agree⟩ hclose h₁
      (fun {n left} hd r' hr' => ?_) hrest (fun r' hr' => hold r' (List.mem_cons_of_mem r hr')) hm'
    rcases hd with hd | ⟨rfl, rfl⟩
    · exact hdone hd r' (List.mem_cons_of_mem r hr')
    · exact hfirst r' hr'

/-- All tokens stand that are made when an update ends. -/
theorem Kept.lives_endUpdate (k : Kept net store x m) (hx : x.Quiet)
    (hclose : ∀ a b : Option Value, (a == b) = true → x.agree a b)
    (hm' : m.endUpdate net store = m') {t : TokenId} (hle : m.nextToken ≤ t)
    (hlt : t < m'.nextToken) : m'.Lives t := by
  cases hd : m.deferred with
  | none =>
    simp only [Matching.endUpdate, hd] at hm'
    exact absurd (hm' ▸ hlt) (Nat.not_lt.2 hle)
  | some dirty =>
    simp only [Matching.endUpdate, hd] at hm'
    have k₁ := k.unmark hd
    have hsorted : dirty.toList.Pairwise fun r r' => r.1 ≤ r'.1 ∧ r ≠ r' :=
      dirty.ordered_toList.imp fun {r r'} hr => by
        refine ⟨Nat.le_of_not_lt fun hlt => ?_, fun heq => ?_⟩
        · rw [dictionary, compareLex, compareOn, Nat.compare_eq_gt.2 hlt] at hr
          cases hr
        · rw [heq, @Std.ReflCmp.compare_self _ dictionary] at hr
          cases hr
    have hold : ∀ r ∈ dirty.toList, r.2 < m.nextToken := fun r hr => by
      obtain ⟨node, -, o, ho, -⟩ := k.sound.left_of_marked hd hr
      exact k.sound.forest.lt_next ho
    obtain ⟨done, h⟩ := k₁.sound.fresh_settleEach W k₁.stocked
      ⟨hx.filed, hx.listed, hx.idle, hx.agree⟩ hclose
      (.refl k₁.sound.forest fun _ _ => False) False.elim hsorted hold hm'
    exact h.lives hle hlt

end

end RuleNet
