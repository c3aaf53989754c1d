/-
  Which waiting activation fires first, and which never wait again.

  * `Activation.Before`: the order in which the activations of one group fire.
  * `Agenda.First`: the first one of the focused group.
  * `Agenda.Consistent.first_of_popNext`, `Agenda.Consistent.popNext_eq_none`: it is taken, and nothing is
    taken only where nothing waits there.
  * `Agenda.Later`, `Agenda.Past`: an activation that has gone does not wait again, as numbers are
    given once.
-/
import RuleNet.Proofs.Agenda

namespace RuleNet

/-! ## The order of a group -/

/-- One activation fires before another one of its group: by salience, and then by age. -/
def Activation.Before (strategy : ConflictStrategy) (a b : Activation) : Prop :=
  b.salience < a.salience ∨ (a.salience = b.salience ∧ match strategy with
    | .oldestFirst => a.id < b.id
    | .newestFirst => b.id < a.id)

namespace Agenda

variable {agenda agenda' : Agenda}

/-- An activation waits in the focused group, and all others there come after it. -/
structure First (agenda : Agenda) (a : Activation) : Prop where
  waits : a ∈ agenda.pending
  focused : a.group = agenda.focus
  least : ∀ b ∈ agenda.pending, b.group = agenda.focus → b = a ∨ a.Before agenda.strategy b

/-- Places are compared by salience, and then by age. -/
theorem before_of_rank {strategy : ConflictStrategy} {a b : Activation}
    (h : dictionary (rankOf strategy a.salience a.id) (rankOf strategy b.salience b.id) = .lt) :
    a.Before strategy b := by
  have hcases : ∀ {i j k l : Int}, dictionary (i, j) (k, l) = .lt → i < k ∨ (i = k ∧ j < l) := by
    intro i j k l hlt
    rcases Ordering.then_eq_lt.1 hlt with hfirst | ⟨heq, hsecond⟩
    · exact .inl (Int.compare_eq_lt.1 hfirst)
    · exact .inr ⟨Int.compare_eq_eq.1 heq, Int.compare_eq_lt.1 hsecond⟩
  unfold Activation.Before
  cases strategy with
  | oldestFirst =>
    rcases hcases h with hlt | ⟨heq, hlt⟩
    · left
      omega
    · right
      exact ⟨by omega, Int.ofNat_lt.1 hlt⟩
  | newestFirst =>
    rcases hcases h with hlt | ⟨heq, hlt⟩
    · left
      omega
    · right
      exact ⟨by omega, Int.ofNat_lt.1 (by omega)⟩

/-- The least place of a group comes before all others. -/
theorem rank_least {set : ConflictSet} {least : Rank × ActivationId} (h : set.minEntry? = some least)
    {rank : Rank} {id : ActivationId} (hrank : set[rank]? = some id) :
    (rank, id) = least ∨ dictionary least.1 rank = .lt := by
  have hmem : (rank, id) ∈ set.toList := Std.ExtTreeMap.mem_toList_iff_getElem?_eq_some.2 hrank
  rw [minEntry?_eq_head?] at h
  obtain ⟨rest, hlist⟩ : ∃ rest, set.toList = least :: rest := by
    cases hlist : set.toList with
    | nil => simp [hlist] at h
    | cons e rest =>
      simp only [hlist, List.head?_cons, Option.some.injEq] at h
      exact ⟨rest, by rw [h]⟩
  have hordered := Std.ExtTreeMap.ordered_keys_toList (t := set)
  rw [hlist] at hmem hordered
  rcases List.mem_cons.1 hmem with heq | hin
  · exact .inl heq
  · exact .inr ((List.pairwise_cons.1 hordered).1 _ hin)

/-- What is taken is the first activation of the focused group. -/
theorem Consistent.first_of_popNext (h : agenda.Consistent) {a : Activation}
    (hp : agenda.popNext = some (a, agenda')) : ∃ b, agenda.First b ∧
      a = { b with state := .fired } ∧ Drops agenda agenda' fun c => c = b := by
  obtain ⟨b, id, hb, rfl, D⟩ := drops_popNext h hp
  refine ⟨b, ⟨h.mem_pending.2 ⟨id, hb⟩, ?_, ?_⟩, rfl, D⟩
  all_goals
    unfold popNext at hp
    obtain ⟨⟨rank, id'⟩, hmin, hp⟩ := Option.bind_eq_some_iff.1 hp
    obtain ⟨c, hc, hp⟩ := Option.bind_eq_some_iff.1 hp
    have hsame : c = b := by
      simp only [Option.some.injEq, Prod.mk.injEq] at hp
      obtain ⟨hcb, -⟩ := hp
      have hstate := h.state hc
      have hstate' := h.state hb
      cases c
      cases b
      simp_all
    subst hsame
    have hrank := Std.ExtTreeMap.mem_toList_iff_getElem?_eq_some.1 (mem_toList_of_least _ hmin)
    obtain ⟨b', hb', hgroup, hplace⟩ := h.waiting.1 hrank
    obtain rfl := Option.some.inj (hc.symm.trans hb')
  · exact hgroup
  · intro d hd hfocus
    obtain ⟨id'', hid⟩ := h.mem_pending.1 hd
    have hplaced := h.waiting.2 ⟨d, hid, hfocus, rfl⟩
    rcases rank_least hmin hplaced with heq | hlt
    · left
      obtain ⟨-, rfl⟩ := Prod.mk.inj heq
      exact Option.some.inj (hid.symm.trans hc)
    · right
      refine before_of_rank ?_
      rw [(h.fresh hc).1, (h.fresh hid).1, ← h.rank hc, ← h.rank hid, hplace]
      exact hlt

/-- The first activation of the focused group is taken, which is looked for in a list of the group.
    This computes by structural recursion. -/
def popListed (agenda : Agenda) : Option (Activation × Agenda) := do
  let group := agenda.focus
  let set := agenda.conflictSet group
  let (rank, id) ← set.toList.head?
  let activation ← agenda.get? id
  let rest := (agenda.strike activation).putGroup group (set.erase rank)
  some ({ activation with state := .fired }, { rest with
    locked := some group
    counts := { rest.counts with fired := rest.counts.fired + 1 } })

theorem popNext_eq_popListed (agenda : Agenda) : agenda.popNext = agenda.popListed := by
  unfold popNext popListed
  simp only [minEntry?_eq_head?]

/-- Nothing is taken exactly where no activation of the focused group waits. -/
theorem Consistent.popNext_eq_none (h : agenda.Consistent) :
    agenda.popNext = none ↔ ∀ a ∈ agenda.pending, a.group ≠ agenda.focus := by
  constructor
  · intro hnone a ha hgroup
    obtain ⟨id, hid⟩ := h.mem_pending.1 ha
    have hplaced := h.waiting.2 ⟨a, hid, hgroup, rfl⟩
    have hmem := Std.ExtTreeMap.mem_toList_iff_getElem?_eq_some.2 hplaced
    simp only [popNext, minEntry?_eq_head?] at hnone
    cases hlist : (agenda.conflictSet agenda.focus).toList with
    | nil => simp [hlist] at hmem
    | cons e rest =>
      have hhead : e ∈ (agenda.conflictSet agenda.focus).toList := by simp [hlist]
      obtain ⟨b, hb, -⟩ := h.waiting.1 (Std.ExtTreeMap.mem_toList_iff_getElem?_eq_some.1 hhead)
      simp [hlist, hb] at hnone
  · intro hnone
    cases hp : agenda.popNext with
    | none => rfl
    | some taken =>
      obtain ⟨a, rest⟩ := taken
      obtain ⟨b, hfirst, -⟩ := h.first_of_popNext hp
      exact absurd hfirst.focused (hnone b hfirst.waits)

/-! ## Activations that are gone -/

/-- An agenda goes on and nothing fires: of the numbers that were given before, none waits that did
    not wait. -/
structure Later (agenda agenda' : Agenda) : Prop where
  waits : ∀ {id a}, id < agenda.nextId → agenda'.get? id = some a → agenda.get? id = some a
  next : agenda.nextId ≤ agenda'.nextId
  fired : agenda'.counts.fired = agenda.counts.fired

namespace Later

theorem refl (agenda : Agenda) : agenda.Later agenda := ⟨fun _ => id, Nat.le_refl _, rfl⟩

theorem trans {agenda'' : Agenda} (h : agenda.Later agenda') (h' : agenda'.Later agenda'') :
    agenda.Later agenda'' where
  waits hlt ha := h.waits hlt (h'.waits (Nat.lt_of_lt_of_le hlt h.next) ha)
  next := Nat.le_trans h.next h'.next
  fired := h'.fired.trans h.fired

/-- Activations go, and all else that counts stays. -/
theorem of_get? (hget : ∀ {id a}, agenda'.get? id = some a → agenda.get? id = some a)
    (hnext : agenda'.nextId = agenda.nextId) (hfired : agenda'.counts.fired = agenda.counts.fired) :
    agenda.Later agenda' :=
  ⟨fun _ => hget, Nat.le_of_eq hnext.symm, hfired⟩

/-- A new activation has a number of its own. -/
theorem create (agenda : Agenda) (rule terminal token : Nat) (salience : Int) (group : String)
    (binding : Binding) :
    agenda.Later (agenda.create rule terminal token salience group binding) where
  waits {id a} hlt ha := by
    rwa [get?_create, if_neg (Nat.ne_of_lt hlt)] at ha
  next := Nat.le_succ _
  fired := rfl

theorem setFocus (agenda : Agenda) (group : String) : agenda.Later (agenda.setFocus group) := by
  unfold Agenda.setFocus
  split <;> exact of_get? id rfl rfl

theorem popFocus (agenda : Agenda) : agenda.Later agenda.popFocus.2 := by
  unfold Agenda.popFocus
  split <;> exact of_get? id rfl rfl

theorem cancel (agenda : Agenda) (terminal token : Nat) :
    agenda.Later (agenda.cancel terminal token).2 := by
  unfold Agenda.cancel
  split
  · exact refl agenda
  · split
    · exact of_get? id rfl rfl
    · exact of_get? (fun ha => (getElem?_erase_eq_some.1 ha).1) rfl rfl

theorem strikeAll (agenda : Agenda) (cleared : List Activation) :
    agenda.Later (agenda.strikeAll cleared) := by
  have hfired : ∀ (cleared : List Activation) (agenda : Agenda),
      (agenda.strikeAll cleared).counts.fired = agenda.counts.fired := by
    intro cleared
    induction cleared with
    | nil => exact fun _ => rfl
    | cons b rest ih => exact fun agenda => ih _
  exact of_get? (fun ha => ((get?_strikeAll cleared agenda).1 ha).1)
    (rest_strikeAll cleared agenda).2.1 (hfired cleared agenda)

theorem clearGroup (agenda : Agenda) (group : String) :
    agenda.Later (agenda.clearGroup group).2 := by
  have h := strikeAll { agenda with groups := agenda.groups.erase group }
    ((agenda.conflictSet group).values.filterMap agenda.get?)
  exact ⟨h.waits, h.next, h.fired⟩

end Later

/-- An activation of this number has been there and does not wait. -/
def Past (agenda : Agenda) (id : ActivationId) : Prop := agenda.get? id = none ∧ id < agenda.nextId

/-- What has gone does not wait again. -/
theorem Past.later {id : ActivationId} (h : agenda.Past id) (hl : agenda.Later agenda') :
    agenda'.Past id := by
  refine ⟨Option.eq_none_iff_forall_ne_some.2 fun a ha => ?_, Nat.lt_of_lt_of_le h.2 hl.next⟩
  have hold := hl.waits h.2 ha
  rw [h.1] at hold
  cases hold

/-- What is taken waits no more, and is counted. -/
theorem Consistent.past_of_popNext (h : agenda.Consistent) {a : Activation}
    (hp : agenda.popNext = some (a, agenda')) : agenda'.Past a.id ∧
      (∀ {id}, agenda.Past id → agenda'.Past id) ∧
      agenda'.counts.fired = agenda.counts.fired + 1 := by
  obtain ⟨b, id, hb, rfl, D⟩ := drops_popNext h hp
  have hid : b.id = id := (h.fresh hb).1
  refine ⟨⟨?_, ?_⟩, fun {i} hpast => ⟨?_, ?_⟩, ?_⟩
  · refine Option.eq_none_iff_forall_ne_some.2 fun c hc => ?_
    obtain ⟨hold, hne⟩ := D.get?.1 hc
    have hbid : agenda.get? b.id = some b := hid ▸ hb
    exact hne (Option.some.inj (hold.symm.trans hbid))
  · rw [D.nextId]
    exact hid ▸ (h.fresh hb).2
  · refine Option.eq_none_iff_forall_ne_some.2 fun c hc => ?_
    have hold := (D.get?.1 hc).1
    rw [hpast.1] at hold
    cases hold
  · rw [D.nextId]
    exact hpast.2
  · unfold popNext at hp
    obtain ⟨entry, -, hp⟩ := Option.bind_eq_some_iff.1 hp
    obtain ⟨c, -, hp⟩ := Option.bind_eq_some_iff.1 hp
    simp only [Option.some.injEq, Prod.mk.injEq] at hp
    obtain ⟨-, rfl⟩ := hp
    rfl

end Agenda

end RuleNet
