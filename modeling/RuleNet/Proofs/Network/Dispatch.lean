/-
  Facts are dispatched to memories by their tests.

  Two memories of one type whose tests are the same in any order let the same facts in, in whatever
  networks they are.

  * `Dispatch.choose?_perm`: the choice does not depend on the order of the tests.
  * `Network.Dispatched`: the choice has been made for every memory; every step of a build keeps it.
  * `Network.Supplies.like`: memories that take what was asked for take the same facts.
-/
import RuleNet.Proofs.Network.Drawn
import RuleNet.Proofs.Session.Abreast
import RuleNet.Proofs.Value.Order

namespace RuleNet

/-! ## The choice -/

namespace Dispatch

instance : Std.TransCmp rank := by
  have h₂ : Std.TransCmp fun a b : String × Value => a.2.totalCompare b.2 :=
    { eq_swap := Std.OrientedCmp.eq_swap
      isLE_trans := fun h h' => Std.TransCmp.isLE_trans h h' }
  exact inferInstanceAs
    (Std.TransCmp (compareLex (compareLex (compareOn form) (compareOn Prod.fst)) _))

theorem precedes_eq (a b : String × Value) : precedes a b = (rank a b).isLE := by
  unfold precedes
  cases rank a b <;> rfl

theorem eq_of_rank {a b : String × Value} (h : rank a b = .eq) : a = b := by
  obtain ⟨hnames, hvalues⟩ := Ordering.then_eq_eq.1 h
  obtain ⟨-, hfields⟩ := Ordering.then_eq_eq.1 hnames
  exact Prod.ext (Std.LawfulEqOrd.eq_of_compare hfields) (Value.eq_of_totalCompare _ _ hvalues)

theorem eq_of_precedes {a b : String × Value} (h : precedes a b = true)
    (h' : precedes b a = true) : a = b := by
  rw [precedes_eq] at h h'
  exact eq_of_rank (Std.OrientedCmp.isLE_antisymm h h')

theorem pairwise_mergeSort (tests : List (String × Value)) :
    (tests.mergeSort precedes).Pairwise fun a b => precedes a b = true := by
  refine List.pairwise_mergeSort (fun a b c h h' => ?_) (fun a b => ?_) tests
  · rw [precedes_eq] at h h' ⊢
    exact Std.TransCmp.isLE_trans h h'
  · have hswap : rank b a = (rank a b).swap := Std.OrientedCmp.eq_swap
    rw [precedes_eq, precedes_eq, hswap]
    cases rank a b <;> rfl

/-- The choice does not depend on the order of the tests. -/
theorem choose?_perm {tests tests' : List (Test Place)} (h : tests.Perm tests') :
    choose? tests = choose? tests' := by
  have hperm : ((tests.filterMap Test.equalityLiteral?).mergeSort precedes).Perm
      ((tests'.filterMap Test.equalityLiteral?).mergeSort precedes) :=
    ((List.mergeSort_perm _ _).trans (h.filterMap _)).trans (List.mergeSort_perm _ _).symm
  rw [choose?, choose?, List.Perm.eq_of_pairwise (fun _ _ _ _ => eq_of_precedes)
    (pairwise_mergeSort _) (pairwise_mergeSort _) hperm]

end Dispatch

theorem Test.allHold_eq {ρ : Type} (view : View ρ) (fact : Fact) (moment : Moment)
    (tests : List (Test ρ)) : Test.allHold view fact moment tests =
      tests.all (Test.holds view fact moment) := by
  induction tests with
  | nil => rfl
  | cons item rest ih => rw [Test.allHold, ih, List.all_cons]

namespace Network

variable {net net' : Network}

/-! ## Memories of a network -/

/-- Facts are dispatched to every memory by its tests. -/
def Dispatched (net : Network) : Prop :=
  ∀ a alpha, net.alpha? a = some alpha → alpha.dispatch = Dispatch.choose? alpha.tests

theorem dispatched_empty : Network.empty.Dispatched := fun a alpha ha => by cases ha

namespace Dispatched

theorem congr (h : net.Dispatched) (halphas : net'.alphas = net.alphas) : net'.Dispatched :=
  fun a alpha ha => h a alpha (by rw [alpha?, ← halphas]; exact ha)

/-- A memory may change in what does not concern its tests. -/
theorem modify (h : net.Dispatched) (a : AlphaId) {f : AlphaNode → AlphaNode}
    (hf : ∀ alpha, (f alpha).dispatch = alpha.dispatch ∧ (f alpha).tests = alpha.tests) :
    Dispatched { net with alphas := net.alphas.modify a f } := by
  intro b alpha hb
  simp only [alpha?, Array.getElem?_modify] at hb
  split at hb
  · obtain ⟨beta, hbeta, rfl⟩ := Option.map_eq_some_iff.1 hb
    rw [(hf beta).1, (hf beta).2]
    exact h b beta hbeta
  · exact h b alpha hb

theorem indexField (h : net.Dispatched) (a : AlphaId) (field : String) :
    (net.indexField a field).Dispatched :=
  h.modify a fun alpha => by split <;> exact ⟨rfl, rfl⟩

theorem alphaFor (h : net.Dispatched) {type : String} {tests : List (Test Place)}
    {window : Option Window} {a : AlphaId} (hnet' : net.alphaFor type tests window = (a, net')) :
    net'.Dispatched := by
  unfold Network.alphaFor at hnet'
  split at hnet'
  · cases hnet'
    exact h
  · cases hnet'
    intro b alpha hb
    simp only [alpha?, Array.getElem?_push] at hb
    split at hb
    · cases hb
      rfl
    · exact h b alpha hb

theorem supplied (h : net.Dispatched) (supply? : Option Supply) :
    (net.supplied supply?).2.Dispatched := by
  cases supply? with
  | none => exact h
  | some supply => exact h.alphaFor rfl

theorem connect (h : net.Dispatched) (feed : Feed) (n : NodeId) :
    (net.connect feed n).Dispatched := by
  unfold Network.connect
  have hfed := h.modify feed.alpha
    (f := fun alpha => { alpha with successors := alpha.successors ++ [n] })
    fun alpha => ⟨rfl, rfl⟩
  split
  · exact hfed.indexField _ _
  · exact hfed

theorem connectKind (h : net.Dispatched) (kind : NodeKind) (n : NodeId) :
    (net.connectKind kind n).Dispatched := by
  unfold Network.connectKind
  split
  · exact h.connect _ _
  · exact h

theorem nodeFor (h : net.Dispatched) (parent : Option NodeId) (kind : NodeKind) :
    (net.nodeFor parent kind).2.Dispatched := by
  unfold Network.nodeFor
  split
  · exact h.congr rfl
  · have hconnected := h.connectKind kind net.nodes.size
    cases parent with
    | none => exact hconnected.congr rfl
    | some p => exact hconnected.congr rfl

theorem followAll (h : net.Dispatched) (last : Option NodeId) (steps : List Sketch) :
    (net.followAll last steps).2.Dispatched := by
  induction steps generalizing net last with
  | nil => exact h
  | cons sketch rest ih => exact ih ((h.supplied sketch.supply?).nodeFor _ _) _

theorem addTerminal (h : net.Dispatched) (rule : Nat) (last : Option NodeId) (scope : Scope) :
    (net.addTerminal rule last scope).Dispatched :=
  h.congr (net.ends_addTerminal rule last scope).alphas

theorem finish (h : net.Dispatched) : net.finish.Dispatched := fun a alpha ha => by
  rw [alpha?_finish] at ha
  obtain ⟨beta, hbeta, rfl⟩ := Option.map_eq_some_iff.1 ha
  exact h a beta hbeta

end Dispatched

/-- Memories that take what was asked for take the same facts. -/
theorem Supplies.like (h : net.Dispatched) (h' : net'.Dispatched) {a b : AlphaId} {supply : Supply}
    (hs : net.Supplies a supply) (hs' : net'.Supplies b supply) : ∃ alpha beta,
      net.alpha? a = some alpha ∧ net'.alpha? b = some beta ∧ alpha.Like beta := by
  obtain ⟨alpha, ha, htype, hwindow, htests⟩ := hs
  obtain ⟨beta, hb, htype', hwindow', htests'⟩ := hs'
  refine ⟨alpha, beta, ha, hb, hwindow'.trans hwindow.symm, fun fact moment => ?_⟩
  have hperm := htests'.trans htests.symm
  rw [AlphaNode.admits, AlphaNode.admits, h a alpha ha, h' b beta hb, htype, htype',
    Dispatch.choose?_perm hperm, Test.allHold_eq, Test.allHold_eq, hperm.all_eq]

end Network

end RuleNet
