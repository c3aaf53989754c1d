/-
  The books of an agenda: its tables hold the same activations, and its counters add up.

  An activation stands in three tables, and four acts take it off them again. What is waiting, in which
  group and where, can be read off any of the tables, and the counters say how many went which way.

  * `Agenda.Proper`: no act creates an activation for a token that has one waiting at the terminal.
  * `Agenda.Balanced`: what holds of an agenda on which only such acts were done.
  * `Agenda.Balanced.after`: each act keeps it; one lemma for each way in which activations go.
  * `Agenda.issued`: the numbers that are given to new activations, each one once.
  * `Agenda.books_balance`: so the tables, the counters, the numbers and the focus stack are in order.
-/
import Mathlib.Data.List.Chain
import Mathlib.Data.List.Nodup
import RuleNet.Proofs.Conflict
import RuleNet.Proofs.Lock

namespace RuleNet.Agenda

/-! ## Acts that are in order -/

/-- An act creates no activation for a token that has one waiting at the terminal. -/
def Apart (agenda : Agenda) : Act → Prop
  | .create _ terminal token _ _ _ => ∀ a ∈ agenda.pending, (a.terminal, a.token) ≠ (terminal, token)
  | _ => True

instance decidableApart (agenda : Agenda) : (act : Act) → Decidable (agenda.Apart act)
  | .create _ terminal token _ _ _ =>
    inferInstanceAs (Decidable (∀ a ∈ agenda.pending, (a.terminal, a.token) ≠ (terminal, token)))
  | .cancel .. | .clearGroup _ | .popNext | .setFocus _ | .popFocus | .unlock | .recordSuppressed =>
    .isTrue trivial

/-- None of the acts in a row does so. -/
def Proper (agenda : Agenda) : List Act → Prop
  | [] => True
  | act :: rest => agenda.Apart act ∧ (agenda.after act).Proper rest

/-- An agenda after an act, where the first activation of a group is looked for in a list. This computes
    by structural recursion. -/
def afterListed (agenda : Agenda) : Act → Agenda
  | .popNext => match agenda.popListed with
    | some (_, agenda) => agenda
    | none => agenda
  | act => agenda.after act

theorem after_eq_afterListed (agenda : Agenda) (act : Act) :
    agenda.after act = agenda.afterListed act := by
  cases act with
  | popNext => cases hp : agenda.popListed <;> simp only [after, afterListed, popNext_eq_popListed, hp]
  | create | cancel | clearGroup | setFocus | popFocus | unlock | recordSuppressed => rfl

theorem run_eq_foldl (agenda : Agenda) (acts : List Act) :
    agenda.run acts = acts.foldl afterListed agenda := by
  rw [run, show after = afterListed from funext fun agenda => funext (after_eq_afterListed agenda)]

instance decidableProper (agenda : Agenda) : (acts : List Act) → Decidable (agenda.Proper acts)
  | [] => .isTrue trivial
  | act :: rest =>
    have := decidableProper (agenda.afterListed act) rest
    decidable_of_iff (agenda.Apart act ∧ (agenda.afterListed act).Proper rest) (by
      rw [Proper, after_eq_afterListed])

theorem proper_append (agenda : Agenda) (acts more : List Act) :
    agenda.Proper (acts ++ more) ↔ agenda.Proper acts ∧ (agenda.run acts).Proper more := by
  induction acts generalizing agenda with
  | nil => exact (and_iff_right trivial).symm
  | cons act rest ih => rw [List.cons_append, Proper, Proper, ih, and_assoc]; rfl

/-- The numbers that stand in the table after an act and did not stand there before it, one act after
    the other. -/
def issued (agenda : Agenda) : List Act → List ActivationId
  | [] => []
  | act :: rest => (agenda.after act).activations.keys.filter (fun id => (agenda.get? id).isNone) ++
    (agenda.after act).issued rest

/-- No group is kept without activations. -/
def Filled (agenda : Agenda) : Prop := ∀ group : String, agenda.groups[group]? ≠ some ∅

/-- The books of an agenda balance. -/
structure Balanced (agenda : Agenda) : Prop where
  /-- The tables agree with each other. -/
  consistent : agenda.Consistent
  filled : agenda.Filled
  /-- What has come has fired, was cancelled or waits. -/
  counted : agenda.counts.created = agenda.counts.fired + agenda.counts.cancelled + agenda.size
  /-- Numbers are given in a row from one. -/
  numbered : agenda.nextId = agenda.counts.created + 1
  stacked : agenda.Stacked
  /-- The main group is at the bottom of the focus stack. -/
  bottom : agenda.stack.getLast? = some mainGroup

theorem balanced_empty (strategy : ConflictStrategy) : (empty strategy).Balanced where
  consistent := consistent_empty strategy
  filled := by simp [Filled, empty]
  counted := by simp [empty, size]
  numbered := rfl
  stacked := ⟨nofun, .singleton _⟩
  bottom := rfl

variable {agenda agenda' : Agenda}

/-! ## How many wait -/

/-- What waits is as many as the table holds. -/
theorem Consistent.length_pending (h : agenda.Consistent) : agenda.pending.length = agenda.size := by
  have hnodup : agenda.activations.values.Nodup := by
    rw [values_eq_map_toList]
    refine List.Pairwise.map _ (fun _ _ => id) (Std.ExtTreeMap.distinct_keys_toList.imp_of_mem ?_)
    intro e e' he he' hne heq
    have hid := (h.fresh (Std.ExtTreeMap.mem_toList_iff_getElem?_eq_some.1 he)).1
    have hid' := (h.fresh (Std.ExtTreeMap.mem_toList_iff_getElem?_eq_some.1 he')).1
    exact hne (Std.LawfulEqCmp.compare_eq_iff_eq.2 (hid.symm.trans ((congrArg _ heq).trans hid')))
  have hperm : agenda.pending.Perm agenda.activations.values :=
    (List.perm_ext_iff_of_nodup h.nodup_pending hnodup).2 fun a =>
      h.mem_pending.trans mem_values_iff_getElem?.symm
  rw [hperm.length_eq, values_eq_map_toList, List.length_map, Std.ExtTreeMap.length_toList, size]

/-- One activation less is in the table when it is struck off. -/
theorem size_strike {a : Activation} (h : agenda.get? a.id = some a) :
    (agenda.strike a).size + 1 = agenda.size := by
  have hin : a.id ∈ agenda.activations := by
    rw [Std.ExtTreeMap.mem_iff_isSome_getElem?]
    exact Option.isSome_iff_exists.2 ⟨a, h⟩
  have hpos : 0 < agenda.activations.size := by
    rw [← Std.ExtTreeMap.length_toList]
    exact List.length_pos_of_mem (Std.ExtTreeMap.mem_toList_iff_getElem?_eq_some.2 h)
  have hsize : (agenda.strike a).size = agenda.activations.size - 1 := by
    rw [size, strike, Std.ExtTreeMap.size_erase, if_pos (Std.ExtTreeMap.contains_iff_mem.2 hin)]
  rw [hsize, size]
  omega

/-- Whatever is struck off one after the other is counted. -/
theorem counts_strikeAll (cleared : List Activation) (agenda : Agenda)
    (hin : ∀ a ∈ cleared, agenda.get? a.id = some a) (hnodup : cleared.Pairwise (·.id ≠ ·.id)) :
    (agenda.strikeAll cleared).counts.created = agenda.counts.created ∧
      (agenda.strikeAll cleared).counts.fired = agenda.counts.fired ∧
      (agenda.strikeAll cleared).counts.cancelled + (agenda.strikeAll cleared).size =
        agenda.counts.cancelled + agenda.size := by
  induction cleared generalizing agenda with
  | nil => exact ⟨rfl, rfl, rfl⟩
  | cons a rest ih =>
    obtain ⟨hfirst, hrest⟩ := List.pairwise_cons.1 hnodup
    have hin' : ∀ b ∈ rest, ((agenda.strike a).countCancelled).get? b.id = some b := fun b hb =>
      getElem?_erase_eq_some.2 ⟨hin b (List.mem_cons_of_mem a hb), (hfirst b hb).symm⟩
    obtain ⟨hcreated, hfired, hsum⟩ := ih (agenda.strike a).countCancelled hin' hrest
    have hone : ((agenda.strike a).countCancelled).counts.cancelled +
        ((agenda.strike a).countCancelled).size = agenda.counts.cancelled + agenda.size := by
      have hsize := size_strike (hin a List.mem_cons_self)
      have hsame : ((agenda.strike a).countCancelled).size = (agenda.strike a).size := rfl
      have hmore : ((agenda.strike a).countCancelled).counts.cancelled =
          agenda.counts.cancelled + 1 := rfl
      omega
    exact ⟨hcreated, hfired, hsum.trans hone⟩

/-! ## Groups -/

theorem Filled.putGroup (h : agenda.Filled) (group : String) (set : ConflictSet) :
    (agenda.putGroup group set).Filled := by
  intro other
  rw [Agenda.putGroup]
  by_cases hempty : set.isEmpty
  · rw [if_pos hempty, getElem?_erase_eq]
    split
    · exact (Option.some_ne_none _).symm
    · exact h other
  · rw [if_neg hempty, getElem?_insert_eq]
    split
    · exact fun e => hempty (Std.ExtTreeMap.isEmpty_iff.2 (Option.some.inj e))
    · exact h other

theorem Filled.create (h : agenda.Filled) (rule terminal token : Nat) (salience : Int)
    (group : String) (binding : Binding) :
    (agenda.create rule terminal token salience group binding).Filled := by
  intro other
  rw [Agenda.create, getElem?_insert_eq]
  split
  · exact fun e => Std.ExtTreeMap.insert_ne_empty (Option.some.inj e)
  · exact h other

theorem Filled.erase (h : agenda.Filled) (group : String) :
    ({ agenda with groups := agenda.groups.erase group } : Agenda).Filled := by
  intro other
  rw [getElem?_erase_eq]
  split
  · exact (Option.some_ne_none _).symm
  · exact h other

/-! ## What acts keep -/

namespace Balanced

theorem of_stack (h : agenda.Balanced) (hc : agenda'.Consistent)
    (hk : agenda'.Filled)
    (hcounted : agenda'.counts.created = agenda'.counts.fired + agenda'.counts.cancelled + agenda'.size)
    (hnumbered : agenda'.nextId = agenda'.counts.created + 1) (hstack : agenda'.stack = agenda.stack) :
    agenda'.Balanced :=
  ⟨hc, hk, hcounted, hnumbered, by rw [Stacked, hstack]; exact h.stacked, hstack ▸ h.bottom⟩

theorem create (h : agenda.Balanced) {rule terminal token : Nat} {salience : Int} {group : String}
    {binding : Binding} (hapart : agenda.Apart (.create rule terminal token salience group binding)) :
    (agenda.create rule terminal token salience group binding).Balanced := by
  have hfree : agenda.byToken[(terminal, token)]? = none := by
    refine Option.eq_none_iff_forall_ne_some.2 fun id hid => ?_
    obtain ⟨a, ha, hkey⟩ := h.consistent.byToken.1 hid
    exact hapart a (h.consistent.mem_pending.2 ⟨id, ha⟩) hkey
  have hnew : agenda.nextId ∉ agenda.activations := by
    rw [Std.ExtTreeMap.mem_iff_isSome_getElem?, Bool.not_eq_true, Option.isSome_eq_false_iff,
      Option.isNone_iff_eq_none]
    exact Option.eq_none_iff_forall_ne_some.2 fun a ha =>
      Nat.lt_irrefl _ (h.consistent.fresh ha).2
  have hsize : (agenda.create rule terminal token salience group binding).size = agenda.size + 1 := by
    rw [size, Agenda.create, Std.ExtTreeMap.size_insert,
      if_neg fun hin => hnew (Std.ExtTreeMap.contains_iff_mem.1 hin), size]
  refine h.of_stack (h.consistent.create hfree) (h.filled.create _ _ _ _ _ _) ?_ ?_ rfl
  · rw [hsize, ← Nat.add_assoc]
    exact congrArg (· + 1) h.counted
  · exact congrArg (· + 1) h.numbered

theorem cancel (h : agenda.Balanced) (terminal token : Nat) :
    (agenda.cancel terminal token).2.Balanced := by
  have hc : (agenda.cancel terminal token).2.Consistent := (drops_cancel h.consistent rfl).consistent
  unfold Agenda.cancel at hc ⊢
  cases hid : agenda.byToken[(terminal, token)]? with
  | none => exact h
  | some id =>
    obtain ⟨a, ha, -⟩ := h.consistent.byToken.1 hid
    have hself : agenda.get? a.id = some a := (h.consistent.fresh ha).1.symm ▸ ha
    have hsize := size_strike hself
    have hfilled : (agenda.strike a).Filled := h.filled
    simp only [hid, ha] at hc ⊢
    refine h.of_stack hc (hfilled.putGroup _ _) ?_ h.numbered rfl
    have hcounted := h.counted
    change agenda.counts.created =
      agenda.counts.fired + (agenda.counts.cancelled + 1) + (agenda.strike a).size
    omega

theorem clearGroup (h : agenda.Balanced) (group : String) : (agenda.clearGroup group).2.Balanced := by
  have hc : (agenda.clearGroup group).2.Consistent := (drops_clearGroup h.consistent rfl).consistent
  obtain ⟨cleared, hcleared⟩ :
      ∃ cleared, (agenda.conflictSet group).values.filterMap agenda.get? = cleared := ⟨_, rfl⟩
  have hstack := stack_clearGroup agenda group
  have hafter : (agenda.clearGroup group).2 =
      { agenda with groups := agenda.groups.erase group }.strikeAll cleared := hcleared ▸ rfl
  rw [hafter] at hc hstack ⊢
  have hin : ∀ a ∈ cleared, agenda.get? a.id = some a := fun a ha =>
    (h.consistent.mem_group.1 (hcleared.symm ▸ ha)).1
  have hnodup : cleared.Pairwise (·.id ≠ ·.id) := hcleared ▸ h.consistent.pairwise_group group
  obtain ⟨hcreated, hfired, hsum⟩ :=
    counts_strikeAll cleared { agenda with groups := agenda.groups.erase group } hin hnodup
  obtain ⟨-, hnext, hgroups⟩ :=
    rest_strikeAll cleared { agenda with groups := agenda.groups.erase group }
  have hcounted := h.counted
  have hsum' : (({ agenda with groups := agenda.groups.erase group } : Agenda).strikeAll
      cleared).counts.cancelled + ({ agenda with groups := agenda.groups.erase group }.strikeAll
      cleared).size = agenda.counts.cancelled + agenda.size := hsum
  refine h.of_stack hc (fun other => hgroups ▸ h.filled.erase group other) ?_ ?_ hstack
  · rw [hcreated, hfired]
    change agenda.counts.created = agenda.counts.fired + _ + _
    omega
  · rw [hnext, hcreated]
    exact h.numbered

theorem popNext (h : agenda.Balanced) {a : Activation} (hp : agenda.popNext = some (a, agenda')) :
    agenda'.Balanced := by
  obtain ⟨_, _, -, -, D⟩ := drops_popNext h.consistent hp
  have hc := D.consistent
  unfold Agenda.popNext at hp
  obtain ⟨⟨rank, id⟩, -, hp⟩ := Option.bind_eq_some_iff.1 hp
  obtain ⟨b, hb, hp⟩ := Option.bind_eq_some_iff.1 hp
  cases hp
  have hself : agenda.get? b.id = some b := (h.consistent.fresh hb).1.symm ▸ hb
  have hsize := size_strike hself
  have hfilled : (agenda.strike b).Filled := h.filled
  have hcounted := h.counted
  refine h.of_stack hc (hfilled.putGroup _ _) ?_ h.numbered rfl
  change agenda.counts.created =
    agenda.counts.fired + 1 + agenda.counts.cancelled + (agenda.strike b).size
  omega

/-- The focus moves. -/
theorem of_tables (h : agenda.Balanced) (hc : agenda'.Consistent)
    (hgroups : agenda'.groups = agenda.groups) (hcounts : agenda'.counts = agenda.counts)
    (hactivations : agenda'.activations = agenda.activations) (hnext : agenda'.nextId = agenda.nextId)
    (hstacked : agenda'.Stacked) (hbottom : agenda'.stack.getLast? = some mainGroup) :
    agenda'.Balanced where
  consistent := hc
  filled := by
    rw [Filled, hgroups]
    exact h.filled
  counted := by
    rw [hcounts, size, hactivations]
    exact h.counted
  numbered := by
    rw [hcounts, hnext]
    exact h.numbered
  stacked := hstacked
  bottom := hbottom

theorem setFocus (h : agenda.Balanced) (group : String) : (agenda.setFocus group).Balanced := by
  have hstacked := (h.stacked.turn (.setFocus group)).1
  have hc := h.consistent.setFocus group
  change (agenda.setFocus group).Stacked at hstacked
  unfold Agenda.setFocus at hc hstacked ⊢
  split
  · exact h
  · next hne =>
    rw [if_neg hne] at hc hstacked
    refine h.of_tables hc rfl rfl rfl rfl hstacked ?_
    rw [List.getLast?_cons_of_ne_nil h.stacked.1]
    exact h.bottom

theorem popFocus (h : agenda.Balanced) : agenda.popFocus.2.Balanced := by
  have hstacked := (h.stacked.turn .popFocus).1
  have hc := h.consistent.popFocus
  have hbottom := h.bottom
  change agenda.popFocus.2.Stacked at hstacked
  unfold Agenda.popFocus at hc hstacked ⊢
  split
  · next top next rest hstack =>
    rw [hstack] at hc hstacked
    rw [hstack, List.getLast?_cons_cons] at hbottom
    exact h.of_tables hc rfl rfl rfl rfl hstacked hbottom
  · exact h

/-- An act that is in order keeps the books balanced. -/
theorem after (h : agenda.Balanced) {act : Act} (hapart : agenda.Apart act) :
    (agenda.after act).Balanced := by
  cases act with
  | create rule terminal token salience group binding => exact h.create hapart
  | cancel terminal token => exact h.cancel terminal token
  | clearGroup group => exact h.clearGroup group
  | popNext =>
    rw [Agenda.after]
    split
    · next a agenda' hp => exact h.popNext hp
    · exact h
  | setFocus group => exact h.setFocus group
  | popFocus => exact h.popFocus
  | unlock =>
    exact h.of_tables (h.consistent.congr rfl rfl rfl rfl rfl) rfl rfl rfl rfl h.stacked h.bottom
  | recordSuppressed =>
    exact ⟨h.consistent.congr rfl rfl rfl rfl rfl, h.filled, h.counted, h.numbered, h.stacked, h.bottom⟩

/-- Acts in a row keep them balanced. -/
theorem run (h : agenda.Balanced) {acts : List Act} (hproper : agenda.Proper acts) :
    (agenda.run acts).Balanced := by
  induction acts generalizing agenda with
  | nil => exact h
  | cons act rest ih => exact ih (h.after hproper.1) hproper.2

end Balanced

/-- The order in which a group fires stays. -/
theorem strategy_after (agenda : Agenda) (act : Act) :
    (agenda.after act).strategy = agenda.strategy := by
  cases act with
  | cancel terminal token =>
    rw [after, cancel]
    split
    · rfl
    · split <;> rfl
  | clearGroup group => exact (rest_strikeAll _ _).1
  | popNext =>
    rw [after]
    split
    · next a agenda' hp =>
      unfold popNext at hp
      obtain ⟨_, -, hp⟩ := Option.bind_eq_some_iff.1 hp
      obtain ⟨_, -, hp⟩ := Option.bind_eq_some_iff.1 hp
      cases hp
      rfl
    · rfl
  | setFocus group =>
    rw [after, setFocus]
    split <;> rfl
  | popFocus =>
    rw [after, popFocus]
    split <;> rfl
  | create | unlock | recordSuppressed => rfl

theorem strategy_run (agenda : Agenda) (acts : List Act) :
    (agenda.run acts).strategy = agenda.strategy := by
  induction acts generalizing agenda with
  | nil => rfl
  | cons act rest ih => exact (ih _).trans (strategy_after agenda act)

/-! ## Numbers -/

/-- An act other than a creation takes activations away, if anything. -/
theorem Consistent.loses (h : agenda.Consistent) {act : Act}
    (hact : ∀ rule terminal token salience group binding,
      act ≠ .create rule terminal token salience group binding) :
    (agenda.after act).nextId = agenda.nextId ∧
      ∀ {id a}, (agenda.after act).get? id = some a → agenda.get? id = some a := by
  -- activations of some kind go
  have hdrops : ∀ {agenda' gone}, Drops agenda agenda' gone → agenda'.nextId = agenda.nextId ∧
      ∀ {id a}, agenda'.get? id = some a → agenda.get? id = some a := fun D =>
    ⟨D.nextId, fun ha => (D.get?.1 ha).1⟩
  cases act with
  | create rule terminal token salience group binding => exact absurd rfl (hact _ _ _ _ _ _)
  | cancel terminal token => exact hdrops (drops_cancel h rfl)
  | clearGroup group => exact hdrops (drops_clearGroup h rfl)
  | popNext =>
    rw [after]
    split
    · next a agenda' hp =>
      obtain ⟨_, _, -, -, D⟩ := drops_popNext h hp
      exact hdrops D
    · exact ⟨rfl, fun ha => ha⟩
  | setFocus group =>
    exact ⟨nextId_setFocus agenda group, fun ha => by rwa [after, get?_setFocus] at ha⟩
  | popFocus => exact ⟨nextId_popFocus agenda, fun ha => by rwa [after, get?_popFocus] at ha⟩
  | unlock => exact ⟨rfl, fun ha => ha⟩
  | recordSuppressed => exact ⟨rfl, fun ha => ha⟩

/-- An act gives the next numbers, and what has a smaller number has stood there before. -/
theorem Balanced.numbers_after (h : agenda.Balanced) {act : Act} (hapart : agenda.Apart act) :
    (∃ n, (agenda.after act).nextId = agenda.nextId + n ∧ (agenda.after act).activations.keys.filter
      (fun id => (agenda.get? id).isNone) = List.range' agenda.nextId n) ∧
      ∀ {id a}, id < agenda.nextId → (agenda.after act).get? id = some a → agenda.get? id = some a := by
  have hkeys : ∀ {id}, id ∈ (agenda.after act).activations.keys ↔
      ∃ a, (agenda.after act).get? id = some a := by
    intro id
    rw [Std.ExtTreeMap.mem_keys, Std.ExtTreeMap.mem_iff_isSome_getElem?, Option.isSome_iff_exists]
    rfl
  by_cases hact : ∀ rule terminal token salience group binding,
      act ≠ .create rule terminal token salience group binding
  · obtain ⟨hnext, hloses⟩ := h.consistent.loses hact
    refine ⟨⟨0, hnext, List.filter_eq_nil_iff.2 fun id hid hnone => ?_⟩, fun _ => hloses⟩
    obtain ⟨a, ha⟩ := hkeys.1 hid
    rw [hloses ha] at hnone
    cases hnone
  · push Not at hact
    obtain ⟨rule, terminal, token, salience, group, binding, rfl⟩ := hact
    have hold := h.consistent.get?_nextId
    refine ⟨⟨1, rfl, ?_⟩, fun hlt => (Later.create agenda rule terminal token salience group
      binding).waits hlt⟩
    refine List.perm_singleton.1 ((List.perm_ext_iff_of_nodup (Std.ExtTreeMap.nodup_keys.filter _)
      (List.nodup_singleton _)).2 fun id => ?_)
    rw [List.mem_filter, hkeys, List.mem_singleton, Agenda.after, get?_create]
    constructor
    · rintro ⟨⟨a, ha⟩, hnone⟩
      by_contra hne
      rw [if_neg hne] at ha
      rw [ha] at hnone
      cases hnone
    · rintro rfl
      exact ⟨⟨_, if_pos rfl⟩, by rw [hold]; rfl⟩

/-- Acts in a row give numbers in a row, and whatever number was given before is not given again. -/
theorem Balanced.numbers_run (h : agenda.Balanced) {acts : List Act} (hproper : agenda.Proper acts) :
    (∃ n, (agenda.run acts).nextId = agenda.nextId + n ∧
      agenda.issued acts = List.range' agenda.nextId n) ∧
      ∀ {id a}, id < agenda.nextId → (agenda.run acts).get? id = some a → agenda.get? id = some a := by
  induction acts generalizing agenda with
  | nil => exact ⟨⟨0, rfl, rfl⟩, fun _ ha => ha⟩
  | cons act rest ih =>
    obtain ⟨⟨n, hnext, hnew⟩, hold⟩ := h.numbers_after hproper.1
    obtain ⟨⟨m, hnext', hnew'⟩, hold'⟩ := ih (h.after hproper.1) hproper.2
    refine ⟨⟨n + m, ?_, ?_⟩, fun hlt ha => hold hlt (hold' (hnext ▸ Nat.lt_add_right n hlt) ha)⟩
    · rw [show agenda.run (act :: rest) = (agenda.after act).run rest from rfl, hnext', hnext,
        Nat.add_assoc]
    · rw [issued, hnew, hnew', hnext, ← List.range'_append_1]

/-! ## The books -/

/-- After acts that create no second activation for a token of a terminal, the table, the token index and
    the groups hold the same activations, each at its place in its group and nowhere else, and no group is
    empty. What has come has fired, was cancelled or waits; the numbers are one, two, three and so on, and
    none comes back. The main group is at the bottom of the focus stack, where no group stands twice in a
    row. -/
theorem books_balance (strategy : ConflictStrategy) (acts : List Act)
    (h : (empty strategy).Proper acts) :
    let agenda := (empty strategy).run acts
    (∀ id a, agenda.get? id = some a → a.id = id ∧ a.state = .pending ∧
      agenda.byToken[(a.terminal, a.token)]? = some id ∧
      ∀ group rank, (agenda.conflictSet group)[rank]? = some id ↔
        group = a.group ∧ rank = rankOf strategy a.salience id) ∧
    (∀ (key : Nat × Nat) id, agenda.byToken[key]? = some id →
      ∃ a, agenda.get? id = some a ∧ (a.terminal, a.token) = key) ∧
    (∀ (group : String) set, agenda.groups[group]? = some set → set ≠ ∅ ∧
      ∀ rank id, set[rank]? = some id → ∃ a, agenda.get? id = some a ∧ a.group = group ∧
        rank = rankOf strategy a.salience id) ∧
    (∀ a, a ∈ agenda.pending ↔ ∃ id, agenda.get? id = some a) ∧ agenda.pending.Nodup ∧
    agenda.counts.created =
      agenda.counts.fired + agenda.counts.cancelled + agenda.pending.length ∧
    (empty strategy).issued acts = List.range' 1 agenda.counts.created ∧
    (∀ before later, acts = before ++ later → ∀ id a, id < ((empty strategy).run before).nextId →
      agenda.get? id = some a → ((empty strategy).run before).get? id = some a) ∧
    agenda.focusStack.head? = some mainGroup ∧ agenda.focusStack.IsChain (· ≠ ·) := by
  intro agenda
  have hB : agenda.Balanced := (balanced_empty strategy).run h
  have hC := hB.consistent
  have hs : agenda.strategy = strategy := strategy_run (empty strategy) acts
  refine ⟨fun id a ha => ?_, fun key id => hC.byToken.1, fun group set hset => ?_,
    fun a => hC.mem_pending, hC.nodup_pending, ?_, ?_, ?_, ?_, ?_⟩
  · refine ⟨(hC.fresh ha).1, hC.state ha, hC.byToken.2 ⟨a, ha, rfl⟩, fun group rank => ?_⟩
    rw [hC.waiting, ← hs, ← hC.rank ha]
    constructor
    · rintro ⟨b, hb, rfl, rfl⟩
      obtain rfl := Option.some.inj (ha.symm.trans hb)
      exact ⟨rfl, rfl⟩
    · rintro ⟨rfl, rfl⟩
      exact ⟨a, ha, rfl, rfl⟩
  · refine ⟨fun hempty => hB.filled group (hempty ▸ hset), fun rank id hrank => ?_⟩
    have hplaced : (agenda.conflictSet group)[rank]? = some id := by
      rw [conflictSet, hset]
      exact hrank
    obtain ⟨a, ha, hgroup, rfl⟩ := hC.waiting.1 hplaced
    exact ⟨a, ha, hgroup, hs ▸ hC.rank ha⟩
  · rw [hC.length_pending]
    exact hB.counted
  · obtain ⟨⟨n, hnext, hissued⟩, -⟩ := (balanced_empty strategy).numbers_run h
    have hone : (empty strategy).nextId = 1 := rfl
    have hcreated : n = agenda.counts.created := by
      refine Nat.add_left_cancel (hone ▸ hnext.symm.trans ?_)
      rw [Nat.add_comm]
      exact hB.numbered
    rw [hissued, hone, hcreated]
  · rintro before later rfl id a hlt ha
    obtain ⟨hbefore, hlater⟩ := (proper_append _ _ _).1 h
    change ((empty strategy).run (before ++ later)).get? id = some a at ha
    rw [run_append] at ha
    exact (((balanced_empty strategy).run hbefore).numbers_run hlater).2 hlt ha
  · rw [focusStack, List.head?_reverse]
    exact hB.bottom
  · rw [focusStack, List.isChain_reverse]
    exact hB.stacked.2.imp fun _ _ => Ne.symm


/-- One activation fires and one is cancelled, and the token of the cancelled one gets another one: three
    numbers are given, and one activation waits. -/
theorem books_balance_again :
    let acts : List Act := [.create 0 0 1 5 mainGroup .empty, .create 1 1 2 0 "audit" .empty,
      .setFocus "audit", .popNext, .cancel 0 1, .create 0 0 1 5 mainGroup .empty, .popFocus,
      .clearGroup "audit"]
    (empty .oldestFirst).Proper acts ∧ (empty .oldestFirst).issued acts = [1, 2, 3] ∧
      ((empty .oldestFirst).run acts).pending.length = 1 := by
  intro acts
  have hproper : (empty .oldestFirst).Proper acts := by decide +kernel
  have hcreated : ((empty .oldestFirst).run acts).counts = ⟨3, 1, 1, 0⟩ := by
    rw [run_eq_foldl]
    decide +kernel
  obtain ⟨-, -, -, -, -, hcounted, hissued, -⟩ := books_balance .oldestFirst acts hproper
  rw [hcreated] at hcounted hissued
  have hthree : 3 = 1 + 1 + ((empty .oldestFirst).run acts).pending.length := hcounted
  exact ⟨hproper, hissued, by omega⟩

end RuleNet.Agenda
