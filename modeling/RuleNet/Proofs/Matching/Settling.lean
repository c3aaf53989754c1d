/-
  What becomes of left tokens when results are looked at.

  * `Matching.OnTime`: the result that stands for a left token is as good as the one that is due.
  * `Matching.Redone`: one stood that was not, and has been made anew.
  * `Sound.redoes`: of the results that are looked at, those are made anew that are not on time, and all
    others are left as they are.
  * `Sound.settleStale`: the results of old left tokens may be left out of account meanwhile.
-/
import RuleNet.Proofs.Matching.Update
import RuleNet.Proofs.Matching.Turning

namespace RuleNet

open Matching (Extension)

namespace Matching

/-- The result that stands for a left token is as good as the one that is due. -/
def OnTime (net : Network) (store : WorkingMemory) (m : Matching) : Spots := fun n left =>
  ∀ feed fold having acc, net.kind? n = some (.accumulate feed fold having) →
    (m.about n left).accumulator = some acc →
    (m.standing? n left == (m.matchOf left).gated? store having acc) = true

/-- A result stood for a left token that was not as good as the one that was due, and that one stands
    now. -/
def Redone (net : Network) (store : WorkingMemory) (m m' : Matching) : Spots := fun n left =>
  ∃ feed fold having acc, net.kind? n = some (.accumulate feed fold having) ∧
    (m.about n left).accumulator = some acc ∧ (m'.about n left).accumulator = some acc ∧
    (m.standing? n left == (m.matchOf left).gated? store having acc) = false ∧
    m.NewOutput m' n left ∧ m'.standing? n left = (m'.matchOf left).gated? store having acc

section
variable {net : Network} {store : WorkingMemory} {x : Ledger} {m m' m'' : Matching} {n : NodeId}
  {left : TokenId}

/-- What has been redone has not been left as it was. -/
theorem Redone.not_unmoved (h : Redone net store m m' n left) (T : m.Tidy)
    (hmatch : m'.matchOf left = m.matchOf left) : ¬ m.Unmoved m' n left := by
  obtain ⟨feed, fold, having, acc, -, -, -, hlate, hnew, hstand⟩ := h
  intro hu
  rw [hu.standing, hmatch] at hstand
  rw [← hstand] at hlate
  cases hout : (m.about n left).output with
  | none =>
    rw [standing?_eq_bind, hout] at hlate
    cases hlate
  | some t =>
    have hout' : (m'.about n left).output = some t := by rw [hu.1]; exact hout
    exact absurd (T.output hout).1 (Nat.not_lt.2 (hnew t hout'))

theorem Unmoved.onTime_iff (h : m.Unmoved m' n left) (hmatch : m'.matchOf left = m.matchOf left) :
    m'.OnTime net store n left ↔ m.OnTime net store n left := by
  unfold OnTime
  rw [h.1, h.standing, hmatch]

theorem Redone.before (h : Redone net store m' m'' n left) (hl : Later m m')
    (hu : m.Unmoved m' n left) (hmatch : m'.matchOf left = m.matchOf left) :
    Redone net store m m'' n left := by
  obtain ⟨feed, fold, having, acc, hk, hacc, hacc', hlate, hnew, hstand⟩ := h
  rw [hu.1] at hacc
  rw [hu.standing, hmatch] at hlate
  exact ⟨feed, fold, having, acc, hk, hacc, hacc', hlate, hnew.before hl, hstand⟩

theorem Redone.after (h : Redone net store m m' n left) (hu : m'.Unmoved m'' n left)
    (hmatch : m''.matchOf left = m'.matchOf left) : Redone net store m m'' n left := by
  obtain ⟨feed, fold, having, acc, hk, hacc, hacc', hlate, hnew, hstand⟩ := h
  refine ⟨feed, fold, having, acc, hk, hacc, by rw [hu.1]; exact hacc', hlate, fun t ht => ?_, ?_⟩
  · rw [hu.1] at ht
    exact hnew t ht
  · rw [hu.standing, hmatch]
    exact hstand

theorem Redone.trans (h : Redone net store m m' n left) (h' : Redone net store m' m'' n left)
    (hl : Later m m') : Redone net store m m'' n left := by
  obtain ⟨feed, fold, having, acc, hk, hacc, hacc₁, hlate, -, -⟩ := h
  obtain ⟨feed', fold', having', acc', hk', hacc₁', hacc', -, hnew, hstand⟩ := h'
  cases Option.some.inj (hk.symm.trans hk')
  obtain rfl := Option.some.inj (hacc₁.symm.trans hacc₁')
  exact ⟨feed, fold, having, acc, hk, hacc, hacc', hlate, hnew.before hl, hstand⟩

end

end Matching

section
variable {net : Network} {store : WorkingMemory} {x : Ledger} {m m' : Matching} {n : NodeId}
  {left : TokenId} (W : net.WellFormed)
include W

/-- One result is looked at. -/
theorem Sound.redo (S : Sound net store x m) (T : m.Tidy) (hd : m.deferred.isSome = false)
    (F' : m'.Forest net) (hm' : m.settle net store n left = m') :
    m'.Tidy ∧ Spares net .none (fun m m' n' left' => Spots.at n left n' left' ∧
      Matching.Redone net store m m' n' left') m m' ∧
    (left < m.nextToken → m'.Lives left → m.Unmoved m' n left → m.OnTime net store n left) := by
  by_cases hacc : ∃ feed fold having acc, net.kind? n = some (.accumulate feed fold having) ∧
      (m.node n).accumulators[left]? = some acc
  · obtain ⟨feed, fold, having, acc, hk, hacc⟩ := hacc
    simp only [Matching.settle, hk, hacc] at hm'
    have hgated : left < m.nextToken → m'.Lives left → Later m m' →
        m.gatedResult? store having left acc = (m.matchOf left).gated? store having acc := by
      rintro hlt ⟨o, ho⟩ hl
      exact Matching.gatedResult?_eq W S.forest (hl.survive hlt ho)
    split at hm'
    · next hon =>
      subst hm'
      refine ⟨T, T.spares_refl.nowhere, fun hlt hl _ feed' fold' having' acc' hk' hacc' => ?_⟩
      cases Option.some.inj (hk.symm.trans hk')
      obtain rfl := Option.some.inj (hacc.symm.trans hacc')
      rw [← hgated hlt hl (.refl m)]
      exact hon
    · next hlate =>
      have R := T.renews W (by rw [hk]; rfl) hd _ hm'
      have hredone : left < m.nextToken → m'.Lives left →
          Matching.Redone net store m m' n left := fun hlt hl => by
        obtain ⟨output, habout, hnew⟩ := R.about hlt hl
        have hdue := hgated hlt hl R.spares.toLater
        obtain ⟨o, ho⟩ := hl
        have hmatch := S.forest.matchOf_survive F' R.spares.survive ho hlt
        refine ⟨feed, fold, having, acc, hk, hacc, by rw [habout]; exact hacc, ?_, fun t ht => ?_, ?_⟩
        · rw [← hdue]
          exact Bool.not_eq_true _ ▸ hlate
        · rw [habout] at ht
          exact hnew t ht
        · rw [R.standing hlt ⟨o, ho⟩, hdue, hmatch]
      refine ⟨R.tidy, R.spares.spot fun hlt hl => .inr (hredone hlt hl), fun hlt hl hu => ?_⟩
      have hr := hredone hlt hl
      obtain ⟨o, ho⟩ := hl
      exact absurd hu (hr.not_unmoved T (S.forest.matchOf_survive F' R.spares.survive ho hlt))
  · have hsame : m.settle net store n left = m := by
      unfold Matching.settle
      split
      · next hk ha => exact absurd ⟨_, _, _, _, hk, ha⟩ hacc
      · rfl
    rw [hsame] at hm'
    subst hm'
    exact ⟨T, T.spares_refl.nowhere, fun _ _ _ feed fold having acc hk ha =>
      absurd ⟨feed, fold, having, acc, hk, ha⟩ hacc⟩

/-- Results are looked at one after the other: those are made anew that are not on time. -/
theorem Sound.redoes {results : List (NodeId × TokenId)} (S : Sound net store x m)
    (K : Stocked net store m) (hx : x.Quiet)
    (hclose : ∀ a b : Option Value, (a == b) = true → x.agree a b) (T : m.Tidy)
    (hd : m.deferred.isSome = false)
    (hm' : results.foldl (fun m result => m.settle net store result.1 result.2) m = m') :
    Spares net .none (fun m m' n left => (n, left) ∈ results ∧
      Matching.Redone net store m m' n left) m m' ∧
    ∀ n left, (n, left) ∈ results → left < m.nextToken → m'.Lives left → m.Unmoved m' n left →
      m.OnTime net store n left := by
  induction results generalizing m x with
  | nil =>
    subst hm'
    exact ⟨T.spares_refl.nowhere, fun _ _ h => absurd h List.not_mem_nil⟩
  | cons r rest ih =>
    obtain ⟨k, l⟩ := r
    obtain ⟨S₁, M⟩ := S.settleOne W K hx hclose (rfl : m.settle net store k l = _)
    obtain ⟨T₁, D, hon⟩ := S.redo W T hd S₁.forest rfl
    have hx₁ : Ledger.Quiet { x with stale := fun n' left' => x.stale n' left' ∧ ¬ (n' = k ∧ left' = l) } :=
      ⟨hx.filed, hx.listed, hx.idle, hx.agree⟩
    have K₁ := K.of_alphas M.alphas
    obtain ⟨S', -⟩ := S₁.settleEach W K₁ hx₁ hclose hm'
    obtain ⟨D', hon'⟩ := ih S₁ K₁ hx₁ hclose T₁ (D.deferring.trans hd) hm'
    simp only [List.foldl_cons] at hm'
    generalize m.settle net store k l = m₁ at *
    have hlater := D.toLater.trans D'.toLater
    have hmatch : ∀ {left}, left < m.nextToken → m'.Lives left →
        m₁.matchOf left = m.matchOf left ∧ m'.matchOf left = m₁.matchOf left := by
      rintro left hlt ⟨o, ho⟩
      have hlt₁ := Nat.lt_of_lt_of_le hlt D.next
      exact ⟨S.forest.matchOf_survive S₁.forest D.survive (D'.survive hlt₁ ho) hlt,
        S₁.forest.matchOf_survive S'.forest D'.survive ho hlt₁⟩
    have hspots : ∀ n left, left < m.nextToken → m'.Lives left →
        m.Unmoved m₁ n left ∨ (Spots.at k l n left ∧ Matching.Redone net store m m₁ n left) →
        m₁.Unmoved m' n left ∨ ((n, left) ∈ rest ∧ Matching.Redone net store m₁ m' n left) →
        (m.Unmoved m₁ n left ∧ m₁.Unmoved m' n left) ∨
          ((n, left) ∈ (k, l) :: rest ∧ Matching.Redone net store m m' n left) := by
      rintro n left hlt hl (hu | ⟨⟨rfl, rfl⟩, hr⟩) (hu' | ⟨hin, hr'⟩)
      · exact .inl ⟨hu, hu'⟩
      · exact .inr ⟨List.mem_cons_of_mem _ hin, hr'.before D.toLater hu (hmatch hlt hl).1⟩
      · exact .inr ⟨List.mem_cons_self, hr.after hu' (hmatch hlt hl).2⟩
      · exact .inr ⟨List.mem_cons_self, hr.trans hr' D.toLater⟩
    refine ⟨D.compose D' id (fun _ => id) fun hlt hl h h' =>
      (hspots _ _ hlt hl h h').imp_left fun hu => hu.1.trans hu.2, fun n left hin hlt hl hu => ?_⟩
    have hlt₁ := Nat.lt_of_lt_of_le hlt D.next
    rcases hspots n left hlt hl (D.spots hlt (D'.lives hlt₁ hl)) (D'.spots hlt₁ hl) with ⟨hu₁, hu₂⟩ | ⟨-, hr⟩
    · rcases List.mem_cons.1 hin with heq | hin
      · cases heq
        exact hon hlt (D'.lives hlt₁ hl) hu₁
      · exact (hu₁.onTime_iff (hmatch hlt hl).1).1 (hon' n left hin hlt₁ hl hu₂)
    · obtain ⟨hm₁, hm₂⟩ := hmatch hlt hl
      exact absurd hu (hr.not_unmoved T (hm₂.trans hm₁))

/-- A result is looked at that may be left out of account. -/
theorem Sound.settleStale (S : Sound net store x m) (K : Stocked net store m) (hx : x.Quiet)
    (hstale : x.stale n left) (hm' : m.settle net store n left = m') :
    Sound net store x m' ∧ Moves net .all .all m m' := by
  by_cases hres : ∃ node feed fold having, net.node? n = some node ∧
      node.kind = .accumulate feed fold having ∧ m.LiveAt left node.parent
  · obtain ⟨node, feed, fold, having, hn, hkind, hl⟩ := hres
    have hs := S.settled hn hl (hx.idle n left)
    rw [hkind] at hs
    obtain ⟨acc, output, marked, old, habout, hc, hf, hp, -⟩ := hs
    rw [S.settle_eq W hn hkind hl habout hp] at hm'
    split at hm'
    · exact hm' ▸ ⟨S, .refl S.forest id⟩
    · have hout : output = (m.about n left).output := by rw [habout]
      rw [hout] at hp
      obtain ⟨S', M, output', habout', hp'⟩ := (S.mono (x.le_hold n left)).renew W K
        ⟨hx.filed, fun {c h} _ => hx.listed c h, hx.agree⟩ hn hkind hl (.inr ⟨rfl, rfl⟩) hp _ hm'
      have hkept := M.keeps_at W S.forest S'.forest hn hl
      refine ⟨S'.release_one fun {node'} hn' _ => ?_,
        M.mono (fun _ => .inl trivial) (fun _ => .inl trivial) fun _ => trivial⟩
      obtain rfl := Option.some.inj (hn.symm.trans hn')
      rw [hkind, hkept.2, M.members]
      exact ⟨acc, output', marked, _, by rw [habout', habout], hc, hf, hp', .inr (.inl hstale)⟩
  · rw [S.settle_nothing hres] at hm'
    exact hm' ▸ ⟨S, .refl S.forest id⟩

/-- Results are looked at that may be left out of account. -/
theorem Sound.settleAllStale {results : List (NodeId × TokenId)} (S : Sound net store x m)
    (K : Stocked net store m) (hx : x.Quiet)
    (hstale : ∀ n left, (n, left) ∈ results → x.stale n left)
    (hm' : results.foldl (fun m result => m.settle net store result.1 result.2) m = m') :
    Sound net store x m' ∧ Moves net .all .all m m' := by
  induction results generalizing m with
  | nil => exact hm' ▸ ⟨S, .refl S.forest id⟩
  | cons r rest ih =>
    obtain ⟨S₁, M⟩ := S.settleStale W K hx (hstale r.1 r.2 List.mem_cons_self) rfl
    obtain ⟨S', M'⟩ := ih S₁ (K.of_alphas M.alphas)
      (fun n left hin => hstale n left (List.mem_cons_of_mem r hin)) hm'
    exact ⟨S', M.trans M'⟩

end

end RuleNet
