/-
  Matches up to the signs of zeros.

  A coalesced update may leave a result that differs from the one that is due in the sign of a zero.
  Tests, look-ups and conditions on results do not see such a difference.

  * `Value.SameUnsigned`, `Binding.unsigned`: values and variables up to the signs of zeros.
  * `Predicate.SignBlind`: a predicate that does not see the signs either.
  * `Test.holds_congr`: a test answers the same for views that are alike.
  * `NodeKind.blind_unsigned`: so does a node, unless it asks a predicate that sees the signs.
-/
import RuleNet.Proofs.Matching.Evaluate
import RuleNet.Proofs.Value.Zeros

namespace RuleNet

open Matching (Extension contribution)

/-- Two values differ in the signs of zeros at most. -/
def Value.SameUnsigned (v w : Value) : Prop := v.unsigned = w.unsigned

/-- The variables with a positive zero in place of every negative one. -/
def Binding.unsigned (b : Binding) : Binding :=
  { b with values := b.values.map fun entry => (entry.1, entry.2.unsigned) }

/-- Whether a predicate answers the same for variables that differ in the signs of zeros at most. -/
def Predicate.SignBlind (p : Predicate) : Prop :=
  ∀ b b' : Binding, b.unsigned = b'.unsigned → p.holds b = p.holds b'

theorem Predicate.SignBlind.negate {p : Predicate} (h : p.SignBlind) : p.negate.SignBlind :=
  fun b b' hb => congrArg (! ·) (h b b' hb)

theorem Operator.apply_congr {v v' w w' : Value} (hv : v.SameUnsigned v') (hw : w.SameUnsigned w')
    (operator : Operator) : operator.apply v w = operator.apply v' w' := by
  rw [← operator.apply_unsigned v w, ← operator.apply_unsigned v' w', hv, hw]

theorem Value.SameUnsigned.indexKey_eq {v w : Value} (h : v.SameUnsigned w) :
    v.indexKey = w.indexKey := by
  rw [← v.indexKey_unsigned, ← w.indexKey_unsigned, h]

/-! ## Tests -/

/-- Two views hold the same at all places, up to the signs of zeros. -/
structure View.Alike {ρ : Type} (view view' : View ρ) : Prop where
  value : ∀ p, (view.value p).SameUnsigned (view'.value p)
  moment : ∀ p, view.moment p = view'.moment p

theorem TestOperand.resolve_alike {ρ : Type} {view view' : View ρ} (h : view.Alike view')
    (operand : TestOperand ρ) : (operand.resolve view).SameUnsigned (operand.resolve view') := by
  cases operand with
  | literal v => rfl
  | place p => exact h.value p

namespace Test

variable {ρ : Type} {view view' : View ρ}

mutual

/-- A test answers the same for views that are alike. -/
theorem holds_congr (h : view.Alike view') (fact : Fact) (moment : Moment) :
    ∀ test : Test ρ, holds view fact moment test = holds view' fact moment test
  | compare field operator operand => by
    rw [holds, holds]
    exact Operator.apply_congr rfl (operand.resolve_alike h) operator
  | temporal relation other => by rw [holds, holds, h.moment other]
  | all items => by rw [holds, holds, allHold_congr h fact moment items]
  | any items => by rw [holds, holds, anyHolds_congr h fact moment items]
  | not item => by rw [holds, holds, holds_congr h fact moment item]

theorem allHold_congr (h : view.Alike view') (fact : Fact) (moment : Moment) :
    ∀ items : List (Test ρ), allHold view fact moment items = allHold view' fact moment items
  | [] => by rw [allHold, allHold]
  | item :: rest => by
    rw [allHold, allHold, holds_congr h fact moment item, allHold_congr h fact moment rest]

theorem anyHolds_congr (h : view.Alike view') (fact : Fact) (moment : Moment) :
    ∀ items : List (Test ρ), anyHolds view fact moment items = anyHolds view' fact moment items
  | [] => by rw [anyHolds, anyHolds]
  | item :: rest => by
    rw [anyHolds, anyHolds, holds_congr h fact moment item, anyHolds_congr h fact moment rest]

end

end Test

/-! ## Matches -/

namespace Match.Alike

variable {R R' : Value → Value → Prop} {μ ν : Match}

theorem imp (hR : ∀ {v w}, R v w → R' v w) (h : μ.Alike R ν) : μ.Alike R' ν := by
  refine List.Forall₂.imp (fun e e' he => ⟨he.1, ?_⟩) h
  obtain ⟨-, hvalue⟩ := he
  generalize e.value = value, e'.value = value' at hvalue
  cases hvalue with
  | none => exact .none
  | some hvw => exact .some (hR hvw)

variable (h : μ.Alike R ν)
include h

/-- They hold alike steps at every depth. -/
theorem at? (depth : Nat) : Option.Rel (Extension.Alike R) (μ.at? depth) (ν.at? depth) := by
  cases depth with
  | zero => exact .none
  | succ depth =>
    show Option.Rel _ (μ[depth]?) (ν[depth]?)
    induction h generalizing depth with
    | nil => exact .none
    | cons he _ ih =>
      cases depth with
      | zero => exact .some he
      | succ depth => exact ih depth

theorem handleAt?_eq (depth : Nat) : μ.handleAt? depth = ν.handleAt? depth := by
  have hstep := h.at? depth
  show (μ.at? depth).bind Extension.handle = (ν.at? depth).bind Extension.handle
  generalize μ.at? depth = step, ν.at? depth = step' at hstep
  cases hstep with
  | none => rfl
  | some he => exact he.1

theorem handles_eq : μ.handles = ν.handles := by
  unfold Match.handles
  induction h with
  | nil => rfl
  | cons he _ ih => rw [List.filterMap_cons, List.filterMap_cons, he.1, ih]

end Match.Alike

section
variable {μ ν : Match} (h : μ.Alike Value.SameUnsigned ν) (store : WorkingMemory)
include h

theorem Match.Alike.view : (μ.view store).Alike (ν.view store) where
  value p := by
    cases p with
    | fact depth => rfl
    | field depth name =>
      simp only [Match.view, h.handleAt?_eq depth, Value.SameUnsigned]
    | result depth =>
      have hstep := h.at? depth
      show Value.SameUnsigned (((μ.at? depth).bind Extension.value).getD .null)
        (((ν.at? depth).bind Extension.value).getD .null)
      generalize μ.at? depth = step, ν.at? depth = step' at hstep
      cases hstep with
      | none => rfl
      | @some e e' he =>
        obtain ⟨-, hvalue⟩ := he
        show (e.value.getD .null).SameUnsigned (e'.value.getD .null)
        generalize e.value = value, e'.value = value' at hvalue
        cases hvalue with
        | none => rfl
        | some hvw => exact hvw
  moment p := by
    cases p with
    | fact depth =>
      show (μ.handleAt? depth).bind _ = (ν.handleAt? depth).bind _
      rw [h.handleAt?_eq depth]
    | field depth name => rfl
    | result depth => rfl

/-- The variables of matches that are alike. -/
theorem Match.Alike.binding (scope : List (String × Place)) :
    (μ.binding store scope).unsigned = (ν.binding store scope).unsigned := by
  have hview := h.view store
  refine Binding.mk.injEq .. ▸ ⟨?_, ?_, h.handles_eq⟩
  · refine congrArg (List.filterMap · scope) (funext fun v => ?_)
    obtain ⟨name, place⟩ := v
    cases place with
    | fact depth => exact congrArg (Option.map (name, ·)) (h.handleAt?_eq depth)
    | field depth field => rfl
    | result depth => rfl
  · show ((Match.binding store scope μ).values.map _) = (Match.binding store scope ν).values.map _
    simp only [Match.binding, List.map_filterMap]
    refine congrArg (List.filterMap · scope) (funext fun v => ?_)
    obtain ⟨name, place⟩ := v
    cases place with
    | fact depth => rfl
    | field depth field => exact congrArg (fun v => some (name, v)) (hview.value (.field depth field))
    | result depth => exact congrArg (fun v => some (name, v)) (hview.value (.result depth))

end

theorem Matching.Holds.imp {R R' : Value → Value → Prop} {m : Matching} {node : Option NodeId}
    {found : List Match} (h : m.Holds R node found) (hR : ∀ {v w}, R v w → R' v w) :
    m.Holds R' node found where
  sound hl := by
    obtain ⟨μ, hμ, halike⟩ := h.sound hl
    exact ⟨μ, hμ, halike.imp hR⟩
  complete hμ := by
    obtain ⟨t, hl, halike⟩ := h.complete hμ
    exact ⟨t, hl, halike.imp hR⟩

/-- Where the tokens of a node hold some matches up to the signs of zeros, so are their variables. -/
theorem Matching.Holds.binding_iff {net : Network} {m : Matching} {node : Option NodeId}
    {found : List Match} (h : m.Holds Value.SameUnsigned node found) (W : net.WellFormed)
    (F : m.Forest net) (store : WorkingMemory) (scope : List (String × Place)) (b : Binding) :
    (∃ t, m.LiveAt t node ∧ (m.binding store scope t).unsigned = b) ↔
      ∃ μ ∈ found, (μ.binding store scope).unsigned = b := by
  have hbinding : ∀ {t μ}, m.LiveAt t node → (m.matchOf t).Alike Value.SameUnsigned μ →
      (m.binding store scope t).unsigned = (μ.binding store scope).unsigned :=
    fun {t μ} hlive halike => by
      obtain ⟨o, ho, -⟩ := hlive
      rw [Matching.binding_eq W F ho]
      exact halike.binding store scope
  constructor
  · rintro ⟨t, hlive, hb⟩
    obtain ⟨μ, hμ, halike⟩ := h.sound hlive
    exact ⟨μ, hμ, (hbinding hlive halike).symm.trans hb⟩
  · rintro ⟨μ, hμ, hb⟩
    obtain ⟨t, hlive, halike⟩ := h.complete hμ
    exact ⟨t, hlive, (hbinding hlive halike).trans hb⟩

/-! ## Nodes -/

/-- A node sees the signs of zeros only through a predicate. -/
theorem NodeKind.blind_unsigned {kind : NodeKind} (store : WorkingMemory)
    (hp : ∀ p places, kind = .predicate p places → p.SignBlind) :
    kind.Blind Value.SameUnsigned store where
  accepts feed _ {μ ν} h i := by
    have hview := h.view store
    rw [Match.accepts, Match.accepts]
    congr 1
    · cases store.entry? i with
      | none => rfl
      | some entry => exact Test.allHold_congr hview entry.fact entry.moment feed.tests
    · cases feed.index with
      | none => rfl
      | some index =>
        dsimp only
        rw [(hview.value index.place).indexKey_eq]
  admits feed fold having _ {μ ν} h v := by
    cases having with
    | none => rfl
    | some condition =>
      exact Operator.apply_congr rfl (condition.2.resolve_alike (h.view store)) condition.1
  holds p places hkind {μ ν} h := hp p places hkind _ _ (h.binding store places)

end RuleNet
