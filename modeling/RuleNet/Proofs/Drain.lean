/-
  A group fires in the order in which its activations are listed.

  * `Activation.Before` orders the activations of a group, and no two of them each come first.
  * `Agenda.Consistent.sorted_pending`: of one group, what comes before something else is listed before it.
  * `Agenda.waitingIn`: what waits in a group, as listed; `Agenda.takes`: what is taken one after the other.
  * `Agenda.Consistent.takes_waitingIn`: what is taken is what was listed, and then nothing is left.
  * `Agenda.fires_in_order`: so it is after any acts that are in order.
-/
import RuleNet.Proofs.Books

namespace RuleNet

theorem Activation.Before.asymm {strategy : ConflictStrategy} {a b : Activation}
    (h : a.Before strategy b) : ¬ b.Before strategy a := by
  intro h'
  unfold Activation.Before at h h'
  cases strategy with
  | oldestFirst =>
    rcases h with h | ⟨hs, h⟩ <;> rcases h' with h' | ⟨hs', h'⟩
    · omega
    · omega
    · omega
    · exact Nat.lt_asymm h h'
  | newestFirst =>
    rcases h with h | ⟨hs, h⟩ <;> rcases h' with h' | ⟨hs', h'⟩
    · omega
    · omega
    · omega
    · exact Nat.lt_asymm h h'

namespace Agenda

/-- What waits in a group, as it is listed. -/
def waitingIn (agenda : Agenda) (group : String) : List Activation :=
  agenda.pending.filter fun a => a.group = group

/-- What is taken in so many goes, and the agenda then. -/
def takes : Nat → Agenda → List Activation × Agenda
  | 0, agenda => ([], agenda)
  | n + 1, agenda => match agenda.popNext with
    | none => ([], agenda)
    | some (a, rest) => (a :: (takes n rest).1, (takes n rest).2)

variable {agenda agenda' : Agenda} {a : Activation} {group : String}

theorem mem_waitingIn : a ∈ agenda.waitingIn group ↔ a ∈ agenda.pending ∧ a.group = group := by
  rw [waitingIn, List.mem_filter, decide_eq_true_iff]

/-! ## The listing -/

/-- Of one group, what comes before something else is listed before it. -/
theorem Consistent.sorted_pending (h : agenda.Consistent) :
    agenda.pending.Pairwise fun a b => a.group = b.group → a.Before agenda.strategy b := by
  rw [pending, List.pairwise_flatMap, values_eq_map_toList]
  constructor
  · intro set hset
    obtain ⟨⟨group, set⟩, hmem, rfl⟩ := List.mem_map.1 hset
    have hset := Std.ExtTreeMap.mem_toList_iff_getElem?_eq_some.1 hmem
    rw [values_eq_map_toList, List.pairwise_filterMap, List.pairwise_map]
    refine Std.ExtTreeMap.ordered_keys_toList.imp_of_mem fun {e e'} he he' hlt a ha b hb _ => ?_
    obtain ⟨-, hr⟩ := h.placed hset (Std.ExtTreeMap.mem_toList_iff_getElem?_eq_some.1 he) ha
    obtain ⟨-, hr'⟩ := h.placed hset (Std.ExtTreeMap.mem_toList_iff_getElem?_eq_some.1 he') hb
    refine before_of_rank ?_
    rw [(h.fresh ha).1, (h.fresh hb).1, ← h.rank ha, ← h.rank hb, hr, hr']
    exact hlt
  · -- the activations of two groups are of different groups
    rw [List.pairwise_map]
    refine Std.ExtTreeMap.distinct_keys_toList.imp_of_mem fun {e e'} he he' hne a ha b hb heq => ?_
    obtain ⟨id, hid, ha⟩ := List.mem_filterMap.1 ha
    obtain ⟨id', hid', hb⟩ := List.mem_filterMap.1 hb
    obtain ⟨rank, hrank⟩ := mem_values_iff_getElem?.1 hid
    obtain ⟨rank', hrank'⟩ := mem_values_iff_getElem?.1 hid'
    obtain ⟨hg, -⟩ := h.placed (Std.ExtTreeMap.mem_toList_iff_getElem?_eq_some.1 he) hrank ha
    obtain ⟨hg', -⟩ := h.placed (Std.ExtTreeMap.mem_toList_iff_getElem?_eq_some.1 he') hrank' hb
    exact absurd (Std.LawfulEqCmp.compare_eq_iff_eq.2 (hg.symm.trans (heq.trans hg'))) hne

theorem Consistent.sorted_waitingIn (h : agenda.Consistent) (group : String) :
    (agenda.waitingIn group).Pairwise (Activation.Before agenda.strategy) := by
  refine (h.sorted_pending.sublist List.filter_sublist).imp_of_mem fun {a b} ha hb hbefore => ?_
  exact hbefore ((mem_waitingIn.1 ha).2.trans (mem_waitingIn.1 hb).2.symm)

/-! ## Taking -/

theorem strategy_popNext (hp : agenda.popNext = some (a, agenda')) :
    agenda'.strategy = agenda.strategy := by
  have hafter : agenda.after .popNext = agenda' := by rw [after, hp]
  exact hafter ▸ strategy_after agenda .popNext

/-- The first one that is listed is taken, and the others are listed as before. -/
theorem Consistent.waitingIn_popNext (h : agenda.Consistent)
    (hp : agenda.popNext = some (a, agenda')) : ∃ b, agenda.First b ∧
      a = { b with state := .fired } ∧ agenda'.Consistent ∧ agenda'.focus = agenda.focus ∧
      agenda.waitingIn agenda.focus = b :: agenda'.waitingIn agenda.focus := by
  obtain ⟨b, hfirst, rfl, D⟩ := h.first_of_popNext hp
  refine ⟨b, hfirst, rfl, D.consistent, focus_congr (popNext_focus hp).1, ?_⟩
  have hmem : ∀ {c}, c ∈ agenda'.pending ↔ c ∈ agenda.pending ∧ c ≠ b := by
    intro c
    rw [D.consistent.mem_pending, h.mem_pending]
    constructor
    · rintro ⟨id, hid⟩
      exact ⟨⟨id, (D.get?.1 hid).1⟩, (D.get?.1 hid).2⟩
    · rintro ⟨⟨id, hid⟩, hne⟩
      exact ⟨id, D.get?.2 ⟨hid, hne⟩⟩
  -- both are in firing order, and they have the same activations
  refine eq_of_ascending (fun _ _ => Activation.Before.asymm) (h.sorted_waitingIn _)
    (List.pairwise_cons.2 ⟨fun c hc => ?_, ?_⟩) fun c => ?_
  · obtain ⟨hin, hgroup⟩ := mem_waitingIn.1 hc
    exact (hfirst.least c (hmem.1 hin).1 hgroup).resolve_left (hmem.1 hin).2
  · rw [← strategy_popNext hp]
    exact D.consistent.sorted_waitingIn _
  · rw [List.mem_cons, mem_waitingIn, mem_waitingIn, hmem]
    constructor
    · rintro ⟨hin, hgroup⟩
      by_cases heq : c = b
      · exact .inl heq
      · exact .inr ⟨⟨hin, heq⟩, hgroup⟩
    · rintro (rfl | ⟨⟨hin, -⟩, hgroup⟩)
      · exact ⟨hfirst.waits, hfirst.focused⟩
      · exact ⟨hin, hgroup⟩

theorem Consistent.popNext_eq_none_iff (h : agenda.Consistent) :
    agenda.popNext = none ↔ agenda.waitingIn agenda.focus = [] := by
  rw [h.popNext_eq_none, waitingIn, List.filter_eq_nil_iff]
  simp only [decide_eq_true_eq, ne_eq]

/-- What is taken is what was listed, and once all of it was taken nothing is left. -/
theorem Consistent.takes_waitingIn (h : agenda.Consistent) (n : Nat) :
    (takes n agenda).1 = ((agenda.waitingIn agenda.focus).take n).map
        (fun a => { a with state := .fired }) ∧
      ((takes n agenda).2.popNext = none ↔ (agenda.waitingIn agenda.focus).length ≤ n) := by
  induction n generalizing agenda with
  | zero => exact ⟨rfl, by rw [takes, h.popNext_eq_none_iff, Nat.le_zero, List.length_eq_zero_iff]⟩
  | succ n ih =>
    cases hp : agenda.popNext with
    | none =>
      have hnil := h.popNext_eq_none_iff.1 hp
      simp only [takes, hp, hnil]
      exact ⟨rfl, iff_of_true trivial (Nat.zero_le _)⟩
    | some taken =>
      obtain ⟨a, rest⟩ := taken
      obtain ⟨b, -, rfl, hrest, hfocus, hlist⟩ := h.waitingIn_popNext hp
      obtain ⟨htaken, hleft⟩ := ih hrest
      rw [hfocus] at htaken hleft
      simp only [takes, hp, hlist, List.take_succ_cons, List.map_cons, List.length_cons,
        Nat.add_le_add_iff_right, htaken]
      exact ⟨trivial, hleft⟩

/-! ## The order of firing -/

/-- After acts that create no second activation for a token of a terminal, nothing can be taken just where
    nothing waits in the focused group. Otherwise the one of the group is taken that has the highest
    salience, and of those the oldest or the newest one. Taken one after the other, the activations of the
    group come in the order in which they are listed. -/
theorem fires_in_order (strategy : ConflictStrategy) (acts : List Act)
    (h : (empty strategy).Proper acts) :
    let agenda := (empty strategy).run acts
    (agenda.popNext = none ↔ ∀ a ∈ agenda.pending, a.group ≠ agenda.focus) ∧
    (∀ a rest, agenda.popNext = some (a, rest) → ∃ b ∈ agenda.pending, b.group = agenda.focus ∧
      a = { b with state := .fired } ∧
      ∀ c ∈ agenda.pending, c.group = agenda.focus → c ≠ b → b.Before strategy c) ∧
    ∀ n, (takes n agenda).1 = ((agenda.pending.filter fun a => a.group = agenda.focus).take n).map
        (fun a => { a with state := .fired }) ∧
      ((takes n agenda).2.popNext = none ↔
        (agenda.pending.filter fun a => a.group = agenda.focus).length ≤ n) := by
  intro agenda
  have hC : agenda.Consistent := ((balanced_empty strategy).run h).consistent
  have hs : agenda.strategy = strategy := strategy_run (empty strategy) acts
  refine ⟨hC.popNext_eq_none, fun a rest hp => ?_, fun n => hC.takes_waitingIn n⟩
  obtain ⟨b, hfirst, rfl, -⟩ := hC.waitingIn_popNext hp
  refine ⟨b, hfirst.waits, hfirst.focused, rfl, fun c hc hgroup hne => ?_⟩
  exact hs ▸ (hfirst.least c hc hgroup).resolve_left hne

/-- The one of the highest salience fires first, and of the other two the newer one. -/
theorem fires_in_order_newest :
    let acts : List Act := [.create 0 0 1 (-3) mainGroup .empty, .create 1 1 2 7 mainGroup .empty,
      .create 0 0 3 (-3) mainGroup .empty, .create 2 2 3 9 "audit" .empty]
    (empty .newestFirst).Proper acts ∧
      (takes 2 ((empty .newestFirst).run acts)).1.map Activation.id = [2, 3] ∧
      (takes 2 ((empty .newestFirst).run acts)).2.popNext ≠ none := by
  intro acts
  have hproper : (empty .newestFirst).Proper acts := by decide +kernel
  obtain ⟨-, -, htakes⟩ := fires_in_order .newestFirst acts hproper
  obtain ⟨htaken, hleft⟩ := htakes 2
  refine ⟨hproper, ?_, fun hnone => ?_⟩
  · rw [htaken]
    decide +kernel
  · exact absurd (hleft.1 hnone) (by decide +kernel)

end Agenda

end RuleNet
