/-
  Coalesced updates hide intermediate results, and nothing else.

  Two sessions that are asked the same and differ in their update policy have the same facts, and the
  same matches wait in them, up to the signs of zeros in results.

  * `Session.Ready.pending_iff`: what waits while nothing fires.
  * `Declarations.SignBlind`: predicates do not see the signs of zeros.
  * `Session.Ready.mem_pendingMatches`: what waits is what evaluation finds.
  * `Session.pendingMatches_policies`: so it is the same under both policies.
-/
import RuleNet.Proofs.Matching.Signs
import RuleNet.Proofs.Network.Agreement
import RuleNet.Proofs.Network.Carried
import RuleNet.Proofs.Session.Abreast
import RuleNet.Proofs.Session.Evaluation
import RuleNet.Proofs.Session.Waiting

namespace RuleNet

/-! ## Results that may stand -/

theorem UpdatePolicy.rel_of_agree (policy : UpdatePolicy) {a b : Option Value}
    (h : policy.agree a b) : Option.Rel Value.SameUnsigned a b := by
  have hrefl : a = b → Option.Rel Value.SameUnsigned a b := by
    rintro rfl
    cases a with
    | none => exact .none
    | some v => exact .some rfl
  cases policy with
  | stepwise => exact hrefl h
  | coalesce =>
    rcases h with h | h
    · exact hrefl h
    · cases a with
      | none =>
        cases b with
        | none => exact .none
        | some w => cases h
      | some v =>
        cases b with
        | none => cases h
        | some w => exact .some (Value.unsigned_of_beq h)

/-! ## Predicates -/

/-- The predicates of all rules do not see the signs of zeros. Values are compared up to these signs,
    and a coalesced update leaves a zero where a stepwise one may bring the other; a predicate that
    told the two apart would let a rule match under one policy only. No operator does. -/
def Declarations.SignBlind (declarations : Declarations) : Prop :=
  ∀ rule ∈ declarations.rules, ∀ p, .predicate p ∈ rule.condition.leaves → p.SignBlind

/-- A predicate in a branch is one of the condition, or the opposite of one. -/
theorem BranchOf.predicate {rules : List Rule} {place : Nat} {branch : List Element}
    (h : BranchOf rules place branch) {p : Predicate} (hp : .predicate p ∈ branch) :
    ∃ rule ∈ rules, ∃ q, .predicate q ∈ rule.condition.leaves ∧ (p = q ∨ p = q.negate) := by
  obtain ⟨rule, branches, hrule, hbranches, hmem⟩ := h
  obtain ⟨leaf, hleaf, hstems⟩ := Condition.stems_of_normalize hbranches branch hmem _ hp
  refine ⟨rule, List.mem_of_getElem? hrule, ?_⟩
  cases hstems with
  | predicate => exact ⟨p, hleaf, .inl rfl⟩
  | negated q => exact ⟨q, hleaf, .inr rfl⟩

/-- The nodes of a rule base see the signs of zeros nowhere. -/
theorem Declarations.blind_build {declarations : Declarations} {base : RuleBase}
    (hb : declarations.build = .ok base) (hblind : declarations.SignBlind) {n : NodeId}
    {kind : NodeKind} (hk : base.network.kind? n = some kind) (store : WorkingMemory) :
    kind.Blind Value.SameUnsigned store := by
  refine kind.blind_unsigned store fun p places hkind => ?_
  subst hkind
  obtain ⟨place, branch, hbranch, hp⟩ := (carries_build hb).asked hk
  obtain ⟨rule, hrule, q, hq, heq⟩ := hbranch.predicate hp
  obtain ⟨-, rfl⟩ := build_eq hb
  rcases heq with rfl | rfl
  · exact hblind rule hrule p hq
  · exact (hblind rule hrule q hq).negate

namespace Session

variable {s s' : Session}

/-! ## What waits -/

/-- What a live token at a terminal of a rule binds. -/
def Matched (s : Session) (rule : Nat) (b : Binding) : Prop :=
  ∃ τ terminal t, s.network.terminal? τ = some terminal ∧ terminal.rule = rule ∧
    s.matching.LiveAt t terminal.node ∧ s.matching.binding s.store terminal.scope t = b

/-- What waits is matched. -/
theorem Steady.matched_of_pending (h : s.Steady) {a : Activation} (ha : a ∈ s.agenda.pending) :
    s.Matched a.rule a.binding := by
  obtain ⟨id, hid⟩ := h.agenda.mem_pending.1 ha
  obtain ⟨terminal, rule, hfits, hlive, hbinding⟩ := h.current hid
  exact ⟨a.terminal, terminal, a.token, hfits.ends, hfits.place.symm, hlive, hbinding.symm⟩

/-- While nothing fires, what waits is what is matched. -/
theorem Ready.pending_iff (h : s.Ready) (rule : Nat) (b : Binding) :
    (∃ a ∈ s.agenda.pending, a.rule = rule ∧ a.binding = b) ↔ s.Matched rule b := by
  constructor
  · rintro ⟨a, ha, rfl, rfl⟩
    exact h.steady.matched_of_pending ha
  · rintro ⟨τ, terminal, t, hτ, rfl, hlive, rfl⟩
    obtain ⟨id, a, hid, rfl, rfl⟩ := h.waiting.awaited τ t terminal ⟨terminal, hτ, hlive⟩ hτ
    obtain ⟨terminal', rule, hfits, -, hbinding⟩ := h.steady.current hid
    obtain rfl := Option.some.inj (hτ.symm.trans hfits.ends)
    exact ⟨a, h.steady.agenda.mem_pending.2 ⟨id, hid⟩, hfits.place, hbinding⟩

/-- What a rule matches is what evaluation of its branches finds, up to the signs of zeros. -/
theorem Steady.matched_iff (h : s.Steady) (W : s.network.WellFormed)
    (H : ∀ {τ terminal}, s.network.terminal? τ = some terminal →
      s.matching.Holds Value.SameUnsigned terminal.node
        (evaluate s.store s.matching.members (s.network.branchOf terminal)))
    (rule : Nat) (b : Binding) : (∃ b', s.Matched rule b' ∧ b'.unsigned = b) ↔ ∃ τ terminal,
      s.network.terminal? τ = some terminal ∧ terminal.rule = rule ∧
      ∃ μ ∈ evaluate s.store s.matching.members (s.network.branchOf terminal),
        (μ.binding s.store terminal.scope).unsigned = b := by
  have F := h.kept.sound.forest
  constructor
  · rintro ⟨-, ⟨τ, terminal, t, hτ, hrule, hlive, rfl⟩, hb⟩
    exact ⟨τ, terminal, hτ, hrule, ((H hτ).binding_iff W F s.store terminal.scope b).1 ⟨t, hlive, hb⟩⟩
  · rintro ⟨τ, terminal, hτ, hrule, hμ⟩
    obtain ⟨t, hlive, hb⟩ := ((H hτ).binding_iff W F s.store terminal.scope b).2 hμ
    exact ⟨_, ⟨τ, terminal, t, hτ, hrule, hlive, rfl⟩, hb⟩

/-- The rules and the variables of what waits, up to the signs of zeros. -/
def pendingMatches (s : Session) : List (Nat × Binding) :=
  s.agenda.pending.map fun a => (a.rule, a.binding.unsigned)

/-- What waits is what evaluation finds. -/
theorem Ready.mem_pendingMatches (h : s.Ready)
    (E : Evaluated s.network s.store s.due s.matching Value.SameUnsigned) (rule : Nat)
    (b : Binding) : (rule, b) ∈ s.pendingMatches ↔ ∃ τ terminal,
      s.network.terminal? τ = some terminal ∧ terminal.rule = rule ∧
      ∃ μ ∈ evaluate s.store s.matching.members (s.network.branchOf terminal),
        (μ.binding s.store terminal.scope).unsigned = b := by
  rw [← h.steady.matched_iff h.wellFormed (fun hτ => E.holds_terminal h.wellFormed hτ), pendingMatches,
    List.mem_map]
  constructor
  · rintro ⟨a, ha, hb⟩
    rw [Prod.mk.injEq] at hb
    exact ⟨a.binding, (h.pending_iff rule _).1 ⟨a, ha, hb.1, rfl⟩, hb.2⟩
  · rintro ⟨b', hmatched, rfl⟩
    obtain ⟨a, ha, rfl, rfl⟩ := (h.pending_iff rule b').2 hmatched
    exact ⟨a, ha, rfl⟩

/-! ## Two policies -/

/-- Memories of one network hold the same in both sessions. -/
theorem Abreast.members_eq (h : s.Abreast s') (hnet : s'.network = s.network) {a : AlphaId}
    {alpha : AlphaNode} (ha : s.network.alpha? a = some alpha) :
    s'.matching.members a = s.matching.members a :=
  congrArg Shelf.facts (h.shelf ha (hnet ▸ ha) (.refl alpha))

/-- Branches have the same matches in both sessions. -/
theorem Abreast.evaluate_eq (h : s.Abreast s') (hnet : s'.network = s.network) {types : Types}
    {branch : List Element} {terminal : Terminal} (hd : s.network.Draws types branch terminal) :
    evaluate s'.store s'.matching.members (s'.network.branchOf terminal) =
      evaluate s.store s.matching.members (s.network.branchOf terminal) := by
  obtain ⟨steps, scope, -, -, hfits⟩ := hd.drawn
  rw [h.store, hnet]
  refine evaluate_congr (List.forall₂_same.2 fun kind hkind μ => ?_)
  refine NodeKind.extensions_congr (fun feed hf => ?_) μ
  obtain ⟨sketch, -, hfit⟩ := forall₂_mem_right hfits hkind
  obtain ⟨supply, -, alpha, ha, -⟩ := hfit.feed hf
  exact h.members_eq hnet ha

/-- When a session starts, all that has matched waits. -/
theorem ready_start {declarations : Declarations} {base : RuleBase}
    (hb : declarations.build = .ok base) (settings : Settings) (reading : Moment) :
    (start base settings reading).Ready :=
  Ready.start (Declarations.wellFormed_build hb) (fun hτ => by
    obtain ⟨branch, ⟨rule, branches, hrule, -⟩, -⟩ := (Declarations.carries_build hb).drawn hτ
    exact ⟨rule, hrule⟩) settings reading

/-- Under both update policies the same requests at the same times lead to the same facts and, up to
    the signs of zeros, to the same waiting matches, as long as nothing fires and no predicate sees these
    signs. -/
theorem pendingMatches_policies {declarations : Declarations} {base : RuleBase}
    (hb : declarations.build = .ok base) (hsums : declarations.SumsIntegers)
    (hblind : declarations.SignBlind) (settings : Settings) (reading : Moment)
    (changes : List (Moment × Change)) :
    let run policy := changes.foldl changeAt
      (start base { settings with updatePolicy := policy } reading)
    (run .coalesce).store = (run .stepwise).store ∧
      ∀ pending, pending ∈ (run .coalesce).pendingMatches ↔
        pending ∈ (run .stepwise).pendingMatches := by
  intro run
  have W := Declarations.wellFormed_build hb
  have C := Declarations.carries_build hb
  have hready : ∀ policy, (run policy).Ready := fun policy =>
    (ready_start hb _ reading).changesAt changes
  have hbase : ∀ policy, (run policy).base = base := fun policy =>
    (((Reached.start reading).changesAt changes).steady W).2.1
  have hnet : ∀ policy, (run policy).network = base.network := fun policy =>
    congrArg RuleBase.network (hbase policy)
  have hE : ∀ policy, Evaluated (run policy).network (run policy).store (run policy).due
      (run policy).matching Value.SameUnsigned := fun policy => by
    refine (hready policy).steady.evaluated ?_ (fun _ => rfl) (UpdatePolicy.rel_of_agree _) ?_
    · rw [hnet, hbase]
      exact Declarations.folds_build hb hsums
    · intro n kind hk
      rw [hnet] at hk
      exact Declarations.blind_build hb hblind hk _
  have hstart : (start base { settings with updatePolicy := .stepwise } reading).Abreast
      (start base { settings with updatePolicy := .coalesce } reading) :=
    Abreast.start W W rfl (by rfl) (by rfl) (by rfl) reading
  have A : (run .stepwise).Abreast (run .coalesce) := Abreast.together.changesAt hstart changes
  refine ⟨A.store, fun pending => ?_⟩
  obtain ⟨rule, b⟩ := pending
  rw [(hready _).mem_pendingMatches (hE _), (hready _).mem_pendingMatches (hE _), hnet, hnet]
  refine exists_congr fun τ => exists_congr fun terminal => and_congr_right fun hτ => ?_
  obtain ⟨branch, -, hd⟩ := C.drawn hτ
  have hevaluate := A.evaluate_eq ((hnet _).trans (hnet _).symm) (by rw [hnet]; exact hd)
  rw [hnet, hnet] at hevaluate
  rw [hevaluate, A.store]

/-- The lowest reading, by a rule that asks whether there are other results. -/
def lowest : Declarations where
  types := [⟨"reading", [("level", .double)], .fact, none, none⟩]
  rules := [⟨"lowest", 0, mainGroup, false, false, false,
    .all [.accumulate ⟨⟨"reading", none, [], [], none⟩, .least "level", "low", none⟩,
      .predicate ⟨"alone", 0, false, fun b => b.values.length == 1⟩],
    fun _ => .done⟩]
  queries := []

theorem sumsIntegers_lowest : lowest.SumsIntegers := by
  intro rule hrule acc hacc hneeds
  obtain rfl := List.mem_singleton.1 hrule
  simp only [Condition.leaves, Condition.leavesOfAll, List.append_nil, List.cons_append,
    List.nil_append, List.mem_cons, List.not_mem_nil, or_false, reduceCtorEq,
    Condition.accumulate.injEq] at hacc
  subst hacc
  cases hneeds

theorem signBlind_lowest : lowest.SignBlind := by
  intro rule hrule p hp
  obtain rfl := List.mem_singleton.1 hrule
  simp only [Condition.leaves, Condition.leavesOfAll, List.append_nil, List.cons_append,
    List.nil_append, List.mem_cons, List.not_mem_nil, or_false, reduceCtorEq, false_or,
    Condition.predicate.injEq] at hp
  subst hp
  intro b b' hb
  have hlength := congrArg (fun b : Binding => b.values.length) hb
  simp only [Binding.unsigned, List.length_map] at hlength
  show (b.values.length == 1) = (b'.values.length == 1)
  rw [hlength]

/-- Two readings come one after the other, and then the lower one changes from zero to negative zero. -/
def lowestChanges : List (Moment × Change) :=
  [(0, .insert ⟨"reading", [("level", .double .zero)]⟩),
    (10, .insert ⟨"reading", [("level", .double (.ofNat 1))]⟩),
    (20, .update 1 ⟨"reading", [("level", .double Binary64.zero.neg)]⟩)]

/-- A coalesced update leaves a positive zero where a stepwise one leaves a negative zero; apart from
    the sign the same match waits. -/
theorem pendingMatches_policies_lowest : ∃ base, lowest.build = .ok base ∧
    lowest.SumsIntegers ∧ lowest.SignBlind ∧
    let run policy := lowestChanges.foldl changeAt
      (start base { Settings.standard with updatePolicy := policy } 0)
    ((run .coalesce).agenda.pending.map fun a => a.binding.values) =
      [[("low", .double .zero)]] ∧
    ((run .stepwise).agenda.pending.map fun a => a.binding.values) =
      [[("low", .double Binary64.zero.neg)]] ∧
    (run .coalesce).store = (run .stepwise).store ∧
    ∀ pending, pending ∈ (run .coalesce).pendingMatches ↔
      pending ∈ (run .stepwise).pendingMatches := by
  obtain ⟨base, hb, hrun⟩ := Declarations.build_of_passes lowest
    (fun base => decide (
      (((lowestChanges.foldl changeAt (start base
        { Settings.standard with updatePolicy := .coalesce } 0)).agenda.pending.map
          fun a => a.binding.values) = [[("low", .double .zero)]]) ∧
      (((lowestChanges.foldl changeAt (start base
        { Settings.standard with updatePolicy := .stepwise } 0)).agenda.pending.map
          fun a => a.binding.values) = [[("low", .double Binary64.zero.neg)]])))
    (by decide +kernel)
  obtain ⟨hcoalesce, hstepwise⟩ := of_decide_eq_true hrun
  exact ⟨base, hb, sumsIntegers_lowest, signBlind_lowest, hcoalesce, hstepwise,
    pendingMatches_policies hb sumsIntegers_lowest signBlind_lowest .standard 0 lowestChanges⟩

/-- The lowest reading, where it is a negative zero; a rule and a query ask for it. -/
def sunken : Condition :=
  .all [.accumulate ⟨⟨"reading", none, [], [], none⟩, .least "level", "low", none⟩,
    .predicate ⟨"sunken", 0, false, fun b => decide (b.values = [("low", .double Binary64.zero.neg)])⟩]

def sunkens : Declarations where
  types := [⟨"reading", [("level", .double)], .fact, none, none⟩]
  rules := [⟨"sunken", 0, mainGroup, false, false, false, sunken, fun _ => .done⟩]
  queries := [⟨"sunken", [], sunken⟩]

theorem sumsIntegers_sunkens : sunkens.SumsIntegers := by
  intro rule hrule acc hacc hneeds
  obtain rfl := List.mem_singleton.1 hrule
  simp only [sunken, Condition.leaves, Condition.leavesOfAll, List.append_nil, List.cons_append,
    List.nil_append, List.mem_cons, List.not_mem_nil, or_false, reduceCtorEq,
    Condition.accumulate.injEq] at hacc
  subst hacc
  cases hneeds

/-- Where a predicate sees the sign of a zero, a rule matches under one policy only. -/
theorem pendingMatches_policies_sunkens : ∃ base, sunkens.build = .ok base ∧
    sunkens.SumsIntegers ∧
    let run policy := lowestChanges.foldl changeAt
      (start base { Settings.standard with updatePolicy := policy } 0)
    (run .coalesce).store.toList = (run .stepwise).store.toList ∧
    (run .coalesce).agenda.pending = [] ∧
    ((run .stepwise).agenda.pending.map fun a => (a.rule, a.binding.values)) =
      [(0, [("low", .double Binary64.zero.neg)])] ∧
    ¬ ∀ pending, pending ∈ (run .coalesce).pendingMatches ↔
      pending ∈ (run .stepwise).pendingMatches := by
  obtain ⟨base, hb, hrun⟩ := Declarations.build_of_passes sunkens
    (fun base =>
      let run policy := lowestChanges.foldl changeAt
        (start base { Settings.standard with updatePolicy := policy } 0)
      decide ((run .coalesce).store.toList = (run .stepwise).store.toList ∧
        (run .coalesce).agenda.pending = [] ∧
        ((run .stepwise).agenda.pending.map fun a => (a.rule, a.binding.values)) =
          [(0, [("low", .double Binary64.zero.neg)])]))
    (by decide +kernel)
  obtain ⟨hstore, hcoalesce, hstepwise⟩ := of_decide_eq_true hrun
  refine ⟨base, hb, sumsIntegers_sunkens, hstore, hcoalesce, hstepwise, fun hall => ?_⟩
  obtain ⟨a, hwaits⟩ := List.length_eq_one_iff.1
    ((List.length_map ..).symm.trans (congrArg List.length hstepwise))
  have hmatched := (hall (a.rule, a.binding.unsigned)).2 (by
    rw [pendingMatches, hwaits]
    exact List.mem_singleton_self _)
  rw [pendingMatches, hcoalesce] at hmatched
  cases hmatched

end Session

end RuleNet
