/-
  How a node takes back what it passed on, and how results are made anew.

  * `Sound.withdraw`: the token that was passed on for a left token goes.
  * `Renewed`: what stands for a left token of an accumulator agrees with it.
  * `Sound.renew`, `Sound.refresh`, `Sound.settle`: results are made anew, marked, or looked at.
-/
import RuleNet.Proofs.Matching.Delete
import RuleNet.Proofs.Matching.Emit

namespace RuleNet

open Matching (Extension)

/-! ## Taking back -/

section
variable {net : Network} {store : WorkingMemory} {x : Ledger} {m : Matching} {n : NodeId}
  {node : BetaNode} {left : TokenId} (W : net.WellFormed)
include W

/-- A node takes back what it passed on for a left token, if it did. -/
theorem Sound.withdraw (S : Sound net store x m) (hl : m.LeftOf net n left) (hb : x.busy n left)
    {old : Option Extension} (hp : Passes (m.Made n left) (m.about n left).output old)
    {m' : Matching} (hm' : m.withdraw net n left = m') :
    Sound net store x m' ∧ Moves net (.at n left) .none m m' ∧
    m'.about n left = { m.about n left with output := none } ∧ ∀ t e, ¬ m'.Made n left t e := by
  cases old with
  | none =>
    obtain ⟨hout, hno⟩ := hp
    have hsame : m.withdraw net n left = m := by
      have hnone : (m.node n).outputs[left]? = none := hout
      simp only [Matching.withdraw, hnone]
    rw [← hm', hsame]
    exact ⟨S, .refl S.forest False.elim, by rw [← hout], hno⟩
  | some e =>
    obtain ⟨t, hout, hmade⟩ := hp
    have hsome : (m.node n).outputs[left]? = some t := hout
    simp only [Matching.withdraw, hsome] at hm'
    have hother : ∀ left', left' ≠ left →
        ({ m.node n with outputs := (m.node n).outputs.erase left } : NodeMemory).about left' false =
          (m.node n).about left' false := fun left' hne => by
      have hne' : ¬ left = left' := fun e => hne e.symm
      simp [NodeMemory.about, Std.ExtTreeMap.getElem?_erase, hne']
    have hw : Writes (.at n left) m
        (m.setNode n { m.node n with outputs := (m.node n).outputs.erase left }) := .setNode hother
    have S₁ := S.setNode hl hb ((S.nodes n).congr _ ((m.node n).outputs.erase left)) hother
    have habout : (m.setNode n { m.node n with outputs := (m.node n).outputs.erase left }).about
        n left = { m.about n left with output := none } := by
      rw [Matching.about_setNode, if_pos rfl]
      simp [NodeMemory.about, Matching.about]
    have hmade₁ : (m.setNode n { m.node n with
        outputs := (m.node n).outputs.erase left }).Made n left t e := by
      rw [Matching.made_congr hw.tokens]
      exact (hmade t e).2 ⟨rfl, rfl⟩
    have D := S₁.delete W hmade₁ hb
    rw [hm'] at D
    refine ⟨D.sound, (hw.moves S.forest Or.inl False.elim).trans D.moves, D.about.trans habout,
      fun t' e' hmade' => ?_⟩
    obtain ⟨hold, hne⟩ := D.made.1 hmade'
    rw [Matching.made_congr hw.tokens] at hold
    exact hne ((hmade t' e').1 hold).1

/-! ## Making anew -/

/-- What stands for a left token of an accumulator, and whether it agrees with it. -/
def Renewed (x : Ledger) (store : WorkingMemory) (n : NodeId) (left : TokenId)
    (having : Option (Operator × TestOperand Place)) (key : Option Value) (acc : Accumulator)
    (m : Matching) : Prop :=
  ∃ output marked result, m.about n left = ⟨true, key, none, some acc, output, marked⟩ ∧
    Passes (m.Made n left) output (result.map Extension.result) ∧
    (marked = true ∨ x.stale n left ∨ x.agree result ((m.matchOf left).gated? store having acc))

/-- A node takes back a result and passes on another one. -/
theorem Sound.renew (S : Sound net store x m) (K : Stocked net store m) (hx : x.Calm net n)
    (hn : net.node? n = some node) {feed : Feed} {fold : Fold}
    {having : Option (Operator × TestOperand Place)} (hkind : node.kind = .accumulate feed fold having)
    (hl : m.LiveAt left node.parent) (hb : x.busy n left) {old : Option Extension}
    (hp : Passes (m.Made n left) (m.about n left).output old) (result : Option Value)
    {m' : Matching} (hm' : m.renew net store n left result = m') :
    Sound net store x m' ∧ Moves net (.at n left) (.at n left) m m' ∧
    ∃ output, m'.about n left = { m.about n left with output } ∧
      Passes (m'.Made n left) output (result.map Extension.result) := by
  obtain ⟨S₁, M₁, habout, hno⟩ := S.withdraw W ⟨node, hn, hl⟩ hb hp rfl
  have M₁' : Moves net (.at n left) (.at n left) m (m.withdraw net n left) :=
    M₁.mono Or.inl False.elim id
  have hl₁ := (M₁'.keeps_at W S.forest S₁.forest hn hl).1
  cases result with
  | none =>
    subst hm'
    exact ⟨S₁, M₁', none, habout, rfl, hno⟩
  | some v =>
    subst hm'
    have E := (Matching.emits W store n).emit S₁ (K.of_alphas M₁.alphas) hx hn hl₁ hb
      (e := .result v) (hkind ▸ ⟨v, rfl⟩)
    have hab := E.about
    rw [Network.kind?_eq hn, hkind, habout] at hab
    refine ⟨E.sound, M₁'.trans E.moves, _, hab, _, rfl, fun t e => ?_⟩
    exact E.made.trans (or_iff_right (hno t e))

/-- The contributions of a left token have changed. -/
theorem Sound.refresh (S : Sound net store x m) (K : Stocked net store m) (hx : x.Calm net n)
    (hn : net.node? n = some node) {feed : Feed} {fold : Fold}
    {having : Option (Operator × TestOperand Place)} (hkind : node.kind = .accumulate feed fold having)
    (hl : m.LiveAt left node.parent) (hb : x.busy n left) {key : Option Value} {acc : Accumulator}
    {output : Option TokenId} {marked : Bool} {old : Option Value}
    (habout : m.about n left = ⟨true, key, none, some acc, output, marked⟩)
    (hp : Passes (m.Made n left) output (old.map Extension.result))
    {m' : Matching} (hm' : m.refresh net store n left = m') :
    Sound net store x m' ∧ Moves net (.at n left) (.at n left) m m' ∧
    Renewed x store n left having key acc m' := by
  have hacc : (m.node n).accumulators[left]? = some acc := congrArg LeftRecord.accumulator habout
  cases hd : m.deferred with
  | some dirty =>
    have hstep : m.refresh net store n left =
        { m with deferred := some (dirty.insert (n, left)) } := by
      simp only [Matching.refresh, hd]
    obtain ⟨S', habout'⟩ := S.mark ⟨node, hn, hl⟩ hb hd
    rw [← hm', hstep]
    refine ⟨S', (Writes.mark hd).moves S.forest Or.inl id, output, true, old, ?_, hp, Or.inl rfl⟩
    rw [habout', habout]
  | none =>
    have hstep : m.refresh net store n left =
        m.renew net store n left (m.gatedResult? store having left acc) := by
      simp only [Matching.refresh, hd, Network.kind?_eq hn, hkind, hacc]
    obtain ⟨o, ho, hnode⟩ := hl
    rw [hstep, Matching.gatedResult?_eq W S.forest ho] at hm'
    rw [show output = (m.about n left).output by rw [habout]] at hp
    obtain ⟨S', M, output', hout, hpass⟩ := S.renew W K hx hn hkind ⟨o, ho, hnode⟩ hb hp _ hm'
    have hmatch := (M.keeps_at W S.forest S'.forest hn ⟨o, ho, hnode⟩).2
    refine ⟨S', M, output', marked, _, ?_, hpass, Or.inr (Or.inr ?_)⟩
    · rw [hout, habout]
    · rw [hmatch]
      exact hx.agree _

omit W in
/-- The result that stands for a left token is the one that was passed on. -/
theorem Matching.standing?_eq {result : Option Value}
    (hp : Passes (m.Made n left) (m.about n left).output (result.map Extension.result)) :
    m.standing? n left = result := by
  cases result with
  | none =>
    have hnone : (m.node n).outputs[left]? = none := hp.1
    simp only [standing?, hnone]
    rfl
  | some v =>
    obtain ⟨t, hout, hmade⟩ := hp
    have hsome : (m.node n).outputs[left]? = some t := hout
    obtain ⟨depth, ho⟩ := (hmade t _).2 ⟨rfl, rfl⟩
    obtain ⟨token, htoken, horigin⟩ := origin?_eq_some.1 ho
    have hvalue : token.value = some v := congrArg (fun o => o.step.value) horigin
    simp only [standing?, hsome, Option.bind_eq_bind, Option.bind_some, htoken, hvalue]

/-- A result is made anew if another one is due. -/
theorem Sound.settle_eq (S : Sound net store x m) (hn : net.node? n = some node) {feed : Feed}
    {fold : Fold} {having : Option (Operator × TestOperand Place)}
    (hkind : node.kind = .accumulate feed fold having) (hl : m.LiveAt left node.parent)
    {key : Option Value} {acc : Accumulator} {output : Option TokenId} {marked : Bool}
    {old : Option Value} (habout : m.about n left = ⟨true, key, none, some acc, output, marked⟩)
    (hp : Passes (m.Made n left) output (old.map Extension.result)) : m.settle net store n left =
      if (old == (m.matchOf left).gated? store having acc) = true then m
      else m.renew net store n left ((m.matchOf left).gated? store having acc) := by
  have hacc : (m.node n).accumulators[left]? = some acc := congrArg LeftRecord.accumulator habout
  have hout : output = (m.about n left).output := by rw [habout]
  obtain ⟨o, ho, -⟩ := hl
  simp only [Matching.settle, Network.kind?_eq hn, hkind, hacc, Matching.standing?_eq (hout ▸ hp),
    Matching.gatedResult?_eq W S.forest ho]

/-- A result is looked at, and made anew if another one is due. -/
theorem Sound.settle (S : Sound net store x m) (K : Stocked net store m) (hx : x.Calm net n)
    (hclose : ∀ a b : Option Value, (a == b) = true → x.agree a b)
    (hn : net.node? n = some node) {feed : Feed} {fold : Fold}
    {having : Option (Operator × TestOperand Place)} (hkind : node.kind = .accumulate feed fold having)
    (hl : m.LiveAt left node.parent) (hb : x.busy n left) {key : Option Value} {acc : Accumulator}
    {output : Option TokenId} {marked : Bool} {old : Option Value}
    (habout : m.about n left = ⟨true, key, none, some acc, output, marked⟩)
    (hp : Passes (m.Made n left) output (old.map Extension.result))
    {m' : Matching} (hm' : m.settle net store n left = m') :
    Sound net store x m' ∧ Moves net (.at n left) (.at n left) m m' ∧
    ∃ output result, m'.about n left = ⟨true, key, none, some acc, output, marked⟩ ∧
      Passes (m'.Made n left) output (result.map Extension.result) ∧
      x.agree result ((m'.matchOf left).gated? store having acc) := by
  have hout : output = (m.about n left).output := by rw [habout]
  rw [S.settle_eq W hn hkind hl habout hp] at hm'
  split at hm'
  · next heq =>
    subst hm'
    exact ⟨S, .refl S.forest id, output, old, habout, hp, hclose _ _ heq⟩
  · rw [hout] at hp
    obtain ⟨S', M, output', hab, hpass⟩ := S.renew W K hx hn hkind hl hb hp _ hm'
    have hmatch := (M.keeps_at W S.forest S'.forest hn hl).2
    refine ⟨S', M, output', _, ?_, hpass, ?_⟩
    · rw [hab, habout]
    · rw [hmatch]
      exact hx.agree _

end

end RuleNet
