/-
  The tables of an agenda agree with each other.

  * `Agenda.Consistent`: every waiting activation is found by its token and stands in its group, and
    nothing else is found or stands there.
  * `Agenda.Drops`: an agenda without some of its activations.
  * `Agenda.Consistent.create`, `Agenda.drops_cancel`, `Agenda.drops_clearGroup`,
    `Agenda.drops_popNext`: how activations come and go.
  * `Agenda.Consistent.mem_pending`: what waits is what the table holds, each activation once.
-/
import RuleNet.Agenda
import RuleNet.Proofs.Accumulator

namespace RuleNet

/-! ## Maps -/

/-- The least entry of a map is the first one. -/
theorem minEntry?_eq_head? {α β : Type} {cmp : α → α → Ordering} [Std.TransCmp cmp]
    (map : Std.ExtTreeMap α β cmp) : map.minEntry? = map.toList.head? := by
  obtain ⟨⟨⟨tree, wf⟩⟩⟩ := map
  change Std.DTreeMap.Internal.Impl.Const.minEntry? tree =
    (Std.DTreeMap.Internal.Impl.Const.toList tree).head?
  rw [Std.DTreeMap.Internal.Impl.Const.toList_eq_toListModel_map]
  clear wf
  induction tree with
  | leaf => simp [Std.DTreeMap.Internal.Impl.Const.minEntry?]
  | inner size k v l r ihl ihr =>
    rw [Std.DTreeMap.Internal.Impl.toListModel_inner, List.map_append, List.head?_append]
    cases l with
    | leaf => simp [Std.DTreeMap.Internal.Impl.Const.minEntry?]
    | inner size' k' v' l' r' =>
      have hsome : ∃ e, ((Std.DTreeMap.Internal.Impl.inner size' k' v' l' r').toListModel.map
          fun e => (e.1, e.2)).head? = some e := by
        rw [Std.DTreeMap.Internal.Impl.toListModel_inner, List.map_append, List.map_cons]
        cases l'.toListModel.map fun e => (e.1, e.2) <;> simp
      obtain ⟨e, he⟩ := hsome
      rw [Std.DTreeMap.Internal.Impl.Const.minEntry?, ihl, he]
      rfl

/-- The least entry of a map is one of its entries. -/
theorem mem_toList_of_least {α β : Type} {cmp : α → α → Ordering} [Std.TransCmp cmp]
    (map : Std.ExtTreeMap α β cmp) {e : α × β} (h : map.minEntry? = some e) : e ∈ map.toList :=
  List.mem_of_head? ((minEntry?_eq_head? map).symm.trans h)

theorem mem_values_iff_getElem? {α β : Type} {cmp : α → α → Ordering} [Std.TransCmp cmp]
    [Std.LawfulEqCmp cmp] {map : Std.ExtTreeMap α β cmp} {v : β} :
    v ∈ map.values ↔ ∃ k : α, map[k]? = some v := by
  rw [values_eq_map_toList, List.mem_map]
  constructor
  · rintro ⟨⟨k, w⟩, hmem, rfl⟩
    exact ⟨k, Std.ExtTreeMap.mem_toList_iff_getElem?_eq_some.1 hmem⟩
  · rintro ⟨k, hk⟩
    exact ⟨(k, v), Std.ExtTreeMap.mem_toList_iff_getElem?_eq_some.2 hk, rfl⟩

section
variable {α β : Type} {cmp : α → α → Ordering} [Std.TransCmp cmp] [Std.LawfulEqCmp cmp]
  [DecidableEq α] (map : Std.ExtTreeMap α β cmp) (k i : α) (v : β)

theorem getElem?_insert_eq : (map.insert k v)[i]? = if k = i then some v else map[i]? := by
  simp only [Std.ExtTreeMap.getElem?_insert, Std.LawfulEqCmp.compare_eq_iff_eq]

theorem getElem?_erase_eq : (map.erase k)[i]? = if k = i then none else map[i]? := by
  simp only [Std.ExtTreeMap.getElem?_erase, Std.LawfulEqCmp.compare_eq_iff_eq]

theorem getElem?_erase_eq_some {map : Std.ExtTreeMap α β cmp} {k i : α} {v : β} :
    (map.erase k)[i]? = some v ↔ map[i]? = some v ∧ i ≠ k := by
  rw [getElem?_erase_eq]
  split
  · next heq => simp [heq]
  · next hne => simp [show i ≠ k from fun e => hne e.symm]

end

namespace Agenda

/-! ## Consistency -/

/-- The tables of an agenda agree with each other. -/
structure Consistent (agenda : Agenda) : Prop where
  fresh : ∀ {id a}, agenda.get? id = some a → a.id = id ∧ id < agenda.nextId
  rank : ∀ {id a}, agenda.get? id = some a → a.rank = rankOf agenda.strategy a.salience id
  state : ∀ {id a}, agenda.get? id = some a → a.state = .pending
  byToken : ∀ {key : Nat × Nat} {id}, agenda.byToken[key]? = some id ↔
    ∃ a, agenda.get? id = some a ∧ (a.terminal, a.token) = key
  waiting : ∀ {group} {rank : Rank} {id}, (agenda.conflictSet group)[rank]? = some id ↔
    ∃ a, agenda.get? id = some a ∧ a.group = group ∧ a.rank = rank

theorem consistent_empty (strategy : ConflictStrategy) : (empty strategy).Consistent where
  fresh h := by simp [get?, empty] at h
  rank h := by simp [get?, empty] at h
  state h := by simp [get?, empty] at h
  byToken := by simp [get?, empty]
  waiting := by simp [get?, empty, conflictSet]

/-- Activations of one age and salience have one place. -/
theorem rankOf_inj {strategy : ConflictStrategy} {s s' : Int} {id id' : ActivationId}
    (h : rankOf strategy s id = rankOf strategy s' id') : id = id' := by
  cases strategy with
  | oldestFirst =>
    have hage : (id : Int) = id' := congrArg Prod.snd h
    exact Int.ofNat.inj hage
  | newestFirst =>
    have hage : -(id : Int) = -id' := congrArg Prod.snd h
    exact Int.ofNat.inj (Int.neg_inj.1 hage)

variable {agenda agenda' : Agenda}

/-- A token has one activation at a terminal. -/
theorem Consistent.eq_of_token (h : agenda.Consistent) {id id' : ActivationId} {a b : Activation}
    (ha : agenda.get? id = some a) (hb : agenda.get? id' = some b)
    (hkey : (a.terminal, a.token) = (b.terminal, b.token)) : a = b := by
  have hone := h.byToken.2 ⟨a, ha, rfl⟩
  rw [hkey, h.byToken.2 ⟨b, hb, rfl⟩] at hone
  obtain rfl := Option.some.inj hone
  exact Option.some.inj (ha.symm.trans hb)

/-- One activation stands in a place of a group. -/
theorem Consistent.eq_of_place (h : agenda.Consistent) {id id' : ActivationId} {a b : Activation}
    (ha : agenda.get? id = some a) (hb : agenda.get? id' = some b) (hgroup : a.group = b.group)
    (hrank : a.rank = b.rank) : a = b := by
  have hone := h.waiting.2 ⟨a, ha, rfl, rfl⟩
  rw [hgroup, hrank, h.waiting.2 ⟨b, hb, rfl, rfl⟩] at hone
  obtain rfl := Option.some.inj hone
  exact Option.some.inj (ha.symm.trans hb)

/-- The focus, the lock and the counts belong to no activation. -/
theorem Consistent.congr (h : agenda.Consistent) (hs : agenda'.strategy = agenda.strategy)
    (ha : agenda'.activations = agenda.activations) (ht : agenda'.byToken = agenda.byToken)
    (hg : agenda'.groups = agenda.groups) (hn : agenda'.nextId = agenda.nextId) :
    agenda'.Consistent := by
  obtain ⟨strategy, activations, byToken, groups, stack, locked, nextId, counts⟩ := agenda
  obtain ⟨strategy', activations', byToken', groups', stack', locked', nextId', counts'⟩ := agenda'
  cases hs
  cases ha
  cases ht
  cases hg
  cases hn
  exact ⟨h.fresh, h.rank, h.state, h.byToken, h.waiting⟩

@[simp] theorem get?_setFocus (agenda : Agenda) (group : String) :
    (agenda.setFocus group).get? = agenda.get? := by
  unfold setFocus
  split <;> rfl

theorem nextId_setFocus (agenda : Agenda) (group : String) :
    (agenda.setFocus group).nextId = agenda.nextId := by
  unfold setFocus
  split <;> rfl

theorem Consistent.setFocus (h : agenda.Consistent) (group : String) :
    (agenda.setFocus group).Consistent := by
  unfold Agenda.setFocus
  split
  · exact h
  · exact h.congr rfl rfl rfl rfl rfl

@[simp] theorem get?_popFocus (agenda : Agenda) : agenda.popFocus.2.get? = agenda.get? := by
  unfold popFocus
  split <;> rfl

theorem nextId_popFocus (agenda : Agenda) : agenda.popFocus.2.nextId = agenda.nextId := by
  unfold popFocus
  split <;> rfl

theorem Consistent.popFocus (h : agenda.Consistent) : agenda.popFocus.2.Consistent := by
  unfold Agenda.popFocus
  split
  · exact h.congr rfl rfl rfl rfl rfl
  · exact h

/-! ## Locks -/

/-- Moving the focus locks nothing. -/
theorem locked_setFocus (h : agenda.locked = none) (group : String) :
    (agenda.setFocus group).locked = none := by
  unfold setFocus
  split
  · exact h
  · rfl

theorem locked_popFocus (h : agenda.locked = none) : agenda.popFocus.2.locked = none := by
  unfold popFocus
  split
  · rfl
  · exact h

theorem locked_cancel (agenda : Agenda) (terminal token : Nat) :
    (agenda.cancel terminal token).2.locked = agenda.locked := by
  unfold cancel
  split
  · rfl
  · split <;> rfl

/-! ## Coming -/

section
variable {rule terminal token : Nat} {salience : Int} {group : String} {binding : Binding}

theorem get?_create (id : ActivationId) :
    (agenda.create rule terminal token salience group binding).get? id =
      if id = agenda.nextId then some ⟨id, rule, terminal, token, salience, group, .pending, binding,
        rankOf agenda.strategy salience id⟩
      else agenda.get? id := by
  simp only [get?, create, getElem?_insert_eq]
  by_cases heq : id = agenda.nextId
  · subst heq
    simp
  · rw [if_neg fun e => heq e.symm, if_neg heq]

theorem byToken_create (key : Nat × Nat) :
    (agenda.create rule terminal token salience group binding).byToken[key]? =
      if (terminal, token) = key then some agenda.nextId else agenda.byToken[key]? := by
  simp only [create, getElem?_insert_eq]

theorem conflictSet_create (g : String) (r : Rank) :
    ((agenda.create rule terminal token salience group binding).conflictSet g)[r]? =
      if group = g ∧ rankOf agenda.strategy salience agenda.nextId = r then some agenda.nextId
      else (agenda.conflictSet g)[r]? := by
  simp only [conflictSet, create, getElem?_insert_eq]
  by_cases hg : group = g
  · subst hg
    simp only [if_true, Option.getD_some, getElem?_insert_eq, true_and]
  · simp only [hg, false_and, if_false]

/-- The next number has not been given. -/
theorem Consistent.get?_nextId (h : agenda.Consistent) : agenda.get? agenda.nextId = none :=
  Option.eq_none_iff_forall_ne_some.2 fun _ ha => Nat.lt_irrefl _ (h.fresh ha).2

/-- A token that has no activation gets one. -/
theorem Consistent.create (h : agenda.Consistent) (hnew : agenda.byToken[(terminal, token)]? = none) :
    (agenda.create rule terminal token salience group binding).Consistent := by
  constructor
  case fresh =>
    intro id a ha
    rw [get?_create] at ha
    split at ha
    · next heq =>
      cases ha
      exact ⟨rfl, heq ▸ Nat.lt_succ_self _⟩
    · exact ⟨(h.fresh ha).1, Nat.lt_succ_of_lt (h.fresh ha).2⟩
  case rank =>
    intro id a ha
    rw [get?_create] at ha
    split at ha
    · cases ha
      rfl
    · exact h.rank ha
  case state =>
    intro id a ha
    rw [get?_create] at ha
    split at ha
    · cases ha
      rfl
    · exact h.state ha
  case byToken =>
    intro key id
    rw [byToken_create, get?_create]
    by_cases hid : id = agenda.nextId
    · subst hid
      rw [if_pos rfl]
      split
      · next heq => simp [heq]
      · next hne =>
        rw [h.byToken, h.get?_nextId]
        simp [hne]
    · rw [if_neg hid]
      split
      · next heq =>
        refine iff_of_false (fun e => hid (Option.some.inj e).symm) fun hex => ?_
        rw [← h.byToken, ← heq, hnew] at hex
        cases hex
      · exact h.byToken
  case waiting =>
    intro g r id
    rw [conflictSet_create, get?_create]
    by_cases hid : id = agenda.nextId
    · subst hid
      rw [if_pos rfl]
      split
      · next heq => simp [heq]
      · next hne =>
        rw [h.waiting, h.get?_nextId]
        simpa using hne
    · rw [if_neg hid]
      split
      · next heq =>
        refine iff_of_false (fun e => hid (Option.some.inj e).symm) fun hex => ?_
        obtain ⟨a, ha, -, hr⟩ := hex
        rw [h.rank ha, ← heq.2] at hr
        exact hid (rankOf_inj hr)
      · exact h.waiting

end

/-! ## Going -/

/-- An agenda has lost the activations of some kind, and the others are as they were. -/
structure Drops (agenda agenda' : Agenda) (gone : Activation → Prop) : Prop where
  consistent : agenda'.Consistent
  get? : ∀ {id a}, agenda'.get? id = some a ↔ agenda.get? id = some a ∧ ¬ gone a
  nextId : agenda'.nextId = agenda.nextId

/-- The table, the token index and the groups of an agenda without some of its activations. -/
theorem Consistent.drops (h : agenda.Consistent) {gone : Activation → Prop}
    (hs : agenda'.strategy = agenda.strategy) (hn : agenda'.nextId = agenda.nextId)
    (ha : ∀ {id a}, agenda'.get? id = some a ↔ agenda.get? id = some a ∧ ¬ gone a)
    (ht : ∀ {key : Nat × Nat} {id}, agenda'.byToken[key]? = some id ↔
      agenda.byToken[key]? = some id ∧ ∃ a, agenda'.get? id = some a)
    (hg : ∀ {group} {rank : Rank} {id}, (agenda'.conflictSet group)[rank]? = some id ↔
      (agenda.conflictSet group)[rank]? = some id ∧ ∃ a, agenda'.get? id = some a) :
    Drops agenda agenda' gone where
  consistent := by
    constructor
    case fresh => exact fun hid => hn ▸ h.fresh (ha.1 hid).1
    case rank => exact fun hid => hs ▸ h.rank (ha.1 hid).1
    case state => exact fun hid => h.state (ha.1 hid).1
    case byToken =>
      intro key id
      rw [ht, h.byToken]
      constructor
      · rintro ⟨⟨a, hid, hkey⟩, b, hb⟩
        obtain rfl := Option.some.inj (hid.symm.trans (ha.1 hb).1)
        exact ⟨a, hb, hkey⟩
      · rintro ⟨a, hid, hkey⟩
        exact ⟨⟨a, (ha.1 hid).1, hkey⟩, a, hid⟩
    case waiting =>
      intro group rank id
      rw [hg, h.waiting]
      constructor
      · rintro ⟨⟨a, hid, hplace⟩, b, hb⟩
        obtain rfl := Option.some.inj (hid.symm.trans (ha.1 hb).1)
        exact ⟨a, hb, hplace⟩
      · rintro ⟨a, hid, hplace⟩
        exact ⟨⟨a, (ha.1 hid).1, hplace⟩, a, hid⟩
  get? := ha
  nextId := hn

theorem conflictSet_putGroup (agenda : Agenda) (group other : String) (set : ConflictSet) :
    (agenda.putGroup group set).conflictSet other =
      if group = other then set else agenda.conflictSet other := by
  simp only [conflictSet, putGroup]
  split
  · next hempty =>
    rw [getElem?_erase_eq]
    split
    · rw [Std.ExtTreeMap.isEmpty_iff.1 hempty]
      rfl
    · rfl
  · rw [getElem?_insert_eq]
    split <;> rfl

/-- One waiting activation is struck off all tables. -/
theorem Consistent.remove (h : agenda.Consistent) {id : ActivationId} {a : Activation}
    (ha : agenda.get? id = some a) :
    Drops agenda ((agenda.strike a).putGroup a.group ((agenda.conflictSet a.group).erase a.rank))
      fun b => b = a := by
  obtain ⟨hid, -⟩ := h.fresh ha
  have hget : ∀ {id' b}, ((agenda.strike a).putGroup a.group
      ((agenda.conflictSet a.group).erase a.rank)).get? id' = some b ↔
      agenda.get? id' = some b ∧ b ≠ a := by
    intro id' b
    rw [show ((agenda.strike a).putGroup a.group ((agenda.conflictSet a.group).erase
      a.rank)).get? id' = (agenda.activations.erase a.id)[id']? from rfl, getElem?_erase_eq_some]
    refine and_congr_right fun hb => not_congr ?_
    constructor
    · rintro rfl
      exact Option.some.inj (hb.symm.trans (hid ▸ ha))
    · rintro rfl
      exact (h.fresh hb).1.symm
  refine h.drops rfl rfl hget ?_ ?_
  · intro key id'
    rw [show ((agenda.strike a).putGroup a.group ((agenda.conflictSet a.group).erase
      a.rank)).byToken = agenda.byToken.erase (a.terminal, a.token) from rfl, getElem?_erase_eq_some]
    refine and_congr_right fun hkey => ?_
    obtain ⟨b, hb, rfl⟩ := h.byToken.1 hkey
    constructor
    · intro hne
      exact ⟨b, hget.2 ⟨hb, fun e => hne (e ▸ rfl)⟩⟩
    · rintro ⟨c, hc⟩ heq
      obtain ⟨hc, hca⟩ := hget.1 hc
      obtain rfl := Option.some.inj (hb.symm.trans hc)
      exact hca (h.eq_of_token hb ha heq)
  · intro group rank id'
    rw [conflictSet_putGroup]
    have hset : (agenda.strike a).conflictSet group = agenda.conflictSet group := rfl
    rw [hset]
    split
    · next hgroup =>
      subst hgroup
      rw [getElem?_erase_eq_some]
      refine and_congr_right fun hrank => ?_
      obtain ⟨b, hb, hbg, rfl⟩ := h.waiting.1 hrank
      constructor
      · intro hne
        exact ⟨b, hget.2 ⟨hb, fun e => hne (e ▸ rfl)⟩⟩
      · rintro ⟨c, hc⟩ heq
        obtain ⟨hc, hca⟩ := hget.1 hc
        obtain rfl := Option.some.inj (hb.symm.trans hc)
        exact hca (h.eq_of_place hb ha hbg heq)
    · next hne =>
      refine (and_iff_left_of_imp fun hrank => ?_).symm
      obtain ⟨b, hb, hbg, -⟩ := h.waiting.1 hrank
      refine ⟨b, hget.2 ⟨hb, ?_⟩⟩
      rintro rfl
      exact hne hbg

/-- The waiting activation of a token is cancelled. -/
theorem drops_cancel (h : agenda.Consistent) {terminal token : Nat} {cancelled : Option Activation}
    (hc : agenda.cancel terminal token = (cancelled, agenda')) :
    Drops agenda agenda' fun a => a.terminal = terminal ∧ a.token = token := by
  unfold cancel at hc
  split at hc
  · next hnone =>
    cases hc
    refine ⟨h, (and_iff_left_of_imp fun ha hgone => ?_).symm, rfl⟩
    have := h.byToken.2 ⟨_, ha, rfl⟩
    rw [hgone.1, hgone.2, hnone] at this
    cases this
  · next id hid =>
    obtain ⟨a, ha, hkey⟩ := h.byToken.1 hid
    rw [ha] at hc
    cases hc
    obtain ⟨hcons, hget, hnext⟩ := h.remove ha
    refine ⟨hcons.congr rfl rfl rfl rfl rfl, ?_, hnext⟩
    intro id' b
    refine hget.trans (and_congr_right fun hb => not_congr ?_)
    rw [Prod.mk.injEq] at hkey
    constructor
    · rintro rfl
      exact hkey
    · rintro ⟨rfl, rfl⟩
      exact h.eq_of_token hb ha (Prod.ext hkey.1.symm hkey.2.symm)

/-- Activations are struck off one after the other. -/
def strikeAll (agenda : Agenda) (cleared : List Activation) : Agenda :=
  cleared.foldl (fun agenda b => (agenda.strike b).countCancelled) agenda

theorem get?_strikeAll (cleared : List Activation) (agenda : Agenda) {id : ActivationId}
    {a : Activation} :
    (agenda.strikeAll cleared).get? id = some a ↔
      agenda.get? id = some a ∧ ∀ b ∈ cleared, id ≠ b.id := by
  induction cleared generalizing agenda with
  | nil => simp [strikeAll]
  | cons b rest ih =>
    rw [strikeAll, List.foldl_cons, ← strikeAll, ih, show ((agenda.strike b).countCancelled).get? id =
      (agenda.activations.erase b.id)[id]? from rfl, getElem?_erase_eq_some, and_assoc]
    refine and_congr_right fun _ => ?_
    simp

theorem byToken_strikeAll (cleared : List Activation) (agenda : Agenda) {key : Nat × Nat}
    {id : ActivationId} :
    (agenda.strikeAll cleared).byToken[key]? =
      some id ↔ agenda.byToken[key]? = some id ∧ ∀ b ∈ cleared, key ≠ (b.terminal, b.token) := by
  induction cleared generalizing agenda with
  | nil => simp [strikeAll]
  | cons b rest ih =>
    rw [strikeAll, List.foldl_cons, ← strikeAll, ih, show ((agenda.strike b).countCancelled).byToken =
      agenda.byToken.erase (b.terminal, b.token) from rfl, getElem?_erase_eq_some, and_assoc]
    refine and_congr_right fun _ => ?_
    simp

theorem rest_strikeAll (cleared : List Activation) (agenda : Agenda) :
    (agenda.strikeAll cleared).strategy = agenda.strategy ∧
      (agenda.strikeAll cleared).nextId = agenda.nextId ∧
      (agenda.strikeAll cleared).groups = agenda.groups := by
  induction cleared generalizing agenda with
  | nil => exact ⟨rfl, rfl, rfl⟩
  | cons b rest ih => exact ih _

theorem locked_strikeAll (cleared : List Activation) (agenda : Agenda) :
    (agenda.strikeAll cleared).locked = agenda.locked := by
  induction cleared generalizing agenda with
  | nil => rfl
  | cons b rest ih => exact ih _

theorem locked_clearGroup (agenda : Agenda) (group : String) :
    (agenda.clearGroup group).2.locked = agenda.locked :=
  locked_strikeAll _ { agenda with groups := agenda.groups.erase group }

/-- The waiting activations of a group. -/
theorem Consistent.mem_group (h : agenda.Consistent) {group : String} {a : Activation} :
    a ∈ (agenda.conflictSet group).values.filterMap agenda.get? ↔
      agenda.get? a.id = some a ∧ a.group = group := by
  rw [List.mem_filterMap]
  constructor
  · rintro ⟨id, hid, ha⟩
    obtain ⟨rank, hrank⟩ := mem_values_iff_getElem?.1 hid
    obtain ⟨b, hb, hg, -⟩ := h.waiting.1 hrank
    obtain rfl := Option.some.inj (hb.symm.trans ha)
    exact ⟨(h.fresh ha).1.symm ▸ ha, hg⟩
  · rintro ⟨ha, hg⟩
    exact ⟨a.id, mem_values_iff_getElem?.2 ⟨a.rank, h.waiting.2 ⟨a, ha, hg, rfl⟩⟩, ha⟩

/-- The waiting activations of a group have different numbers. -/
theorem Consistent.pairwise_group (h : agenda.Consistent) (group : String) :
    ((agenda.conflictSet group).values.filterMap agenda.get?).Pairwise (·.id ≠ ·.id) := by
  rw [values_eq_map_toList, List.filterMap_map]
  refine List.Pairwise.filterMap _ ?_ (Std.ExtTreeMap.distinct_keys_toList.imp_of_mem ?_)
    (R := fun e e' => e.2 ≠ e'.2)
  · intro e e' hne a ha b hb heq
    exact hne ((h.fresh ha).1.symm.trans (heq.trans (h.fresh hb).1))
  · intro e e' he he' hne heq
    -- one activation stands in one place
    obtain ⟨a, ha, -, hrank⟩ := h.waiting.1 (Std.ExtTreeMap.mem_toList_iff_getElem?_eq_some.1 he)
    obtain ⟨b, hb, -, hrank'⟩ := h.waiting.1 (Std.ExtTreeMap.mem_toList_iff_getElem?_eq_some.1 he')
    rw [heq, hb] at ha
    obtain rfl := Option.some.inj ha
    exact hne (Std.LawfulEqCmp.compare_eq_iff_eq.2 (hrank.symm.trans hrank'))

/-- The waiting activations of a group are cancelled. -/
theorem drops_clearGroup (h : agenda.Consistent) {group : String} {cleared : List Activation}
    (hc : agenda.clearGroup group = (cleared, agenda')) :
    Drops agenda agenda' fun a => a.group = group := by
  obtain ⟨bs, hbs⟩ : ∃ bs, (agenda.conflictSet group).values.filterMap agenda.get? = bs := ⟨_, rfl⟩
  have hmem : ∀ {b}, b ∈ bs ↔ agenda.get? b.id = some b ∧ b.group = group := hbs ▸ h.mem_group
  simp only [clearGroup, hbs] at hc
  cases hc
  change Drops agenda ({ agenda with groups := agenda.groups.erase group }.strikeAll bs) _
  obtain ⟨hs, hn, hgroups⟩ := rest_strikeAll bs { agenda with groups := agenda.groups.erase group }
  have hget : ∀ {id a},
      ({ agenda with groups := agenda.groups.erase group }.strikeAll bs).get? id = some a ↔
      agenda.get? id = some a ∧ ¬ a.group = group := by
    intro id a
    rw [get?_strikeAll]
    refine and_congr_right fun ha => ?_
    have ha : agenda.get? id = some a := ha
    obtain rfl : a.id = id := (h.fresh ha).1
    constructor
    · exact fun hall hg => hall a (hmem.2 ⟨ha, hg⟩) rfl
    · intro hnot b hb heq
      obtain ⟨hlisted, hg⟩ := hmem.1 hb
      obtain rfl := Option.some.inj (ha.symm.trans (heq ▸ hlisted))
      exact hnot hg
  refine h.drops hs hn hget ?_ ?_
  · intro key id
    rw [byToken_strikeAll]
    refine and_congr_right fun hkey => ?_
    obtain ⟨a, ha, rfl⟩ := h.byToken.1 hkey
    obtain rfl : a.id = id := (h.fresh ha).1
    constructor
    · exact fun hall => ⟨a, hget.2 ⟨ha, fun hg => hall a (hmem.2 ⟨ha, hg⟩) rfl⟩⟩
    · rintro ⟨b, hb⟩ c hc heq
      obtain ⟨hb, hbg⟩ := hget.1 hb
      obtain rfl := Option.some.inj (ha.symm.trans hb)
      obtain ⟨hlisted, hg⟩ := hmem.1 hc
      exact hbg (h.eq_of_token ha hlisted heq ▸ hg)
  · intro other rank id
    have hset : ({ agenda with groups := agenda.groups.erase group }.strikeAll bs).conflictSet other =
        if group = other then ∅ else agenda.conflictSet other := by
      rw [conflictSet, hgroups, getElem?_erase_eq]
      split <;> rfl
    rw [hset]
    split
    · next heq =>
      subst heq
      refine iff_of_false (by simp) ?_
      rintro ⟨hrank, b, hb⟩
      obtain ⟨a, ha, hag, -⟩ := h.waiting.1 hrank
      obtain ⟨hb, hbg⟩ := hget.1 hb
      obtain rfl := Option.some.inj (ha.symm.trans hb)
      exact hbg hag
    · next hne =>
      refine (and_iff_left_of_imp fun hrank => ?_).symm
      obtain ⟨a, ha, hag, -⟩ := h.waiting.1 hrank
      exact ⟨a, hget.2 ⟨ha, fun hg => hne (hg.symm.trans hag)⟩⟩

/-- The first activation of the focused group is taken. -/
theorem drops_popNext (h : agenda.Consistent) {a : Activation}
    (hp : agenda.popNext = some (a, agenda')) : ∃ b id, agenda.get? id = some b ∧
      a = { b with state := .fired } ∧ Drops agenda agenda' fun c => c = b := by
  unfold popNext at hp
  obtain ⟨⟨rank, id⟩, hmin, hp⟩ := Option.bind_eq_some_iff.1 hp
  obtain ⟨b, hb, hp⟩ := Option.bind_eq_some_iff.1 hp
  cases hp
  have hrank := Std.ExtTreeMap.mem_toList_iff_getElem?_eq_some.1 (mem_toList_of_least _ hmin)
  obtain ⟨c, hc, hg, rfl⟩ := h.waiting.1 hrank
  obtain rfl := Option.some.inj (hb.symm.trans hc)
  obtain ⟨hcons, hget, hnext⟩ := h.remove hb
  refine ⟨b, id, hb, rfl, ?_⟩
  rw [hg] at hcons hget
  exact ⟨hcons.congr rfl rfl rfl rfl rfl, hget, hnext⟩

/-! ## What waits -/

/-- What waits is what the table holds. -/
theorem Consistent.mem_pending (h : agenda.Consistent) {a : Activation} :
    a ∈ agenda.pending ↔ ∃ id, agenda.get? id = some a := by
  rw [pending, List.mem_flatMap]
  constructor
  · rintro ⟨set, -, ha⟩
    obtain ⟨id, -, hid⟩ := List.mem_filterMap.1 ha
    exact ⟨id, hid⟩
  · rintro ⟨id, hid⟩
    have hw := h.waiting.2 ⟨a, hid, rfl, rfl⟩
    cases hg : agenda.groups[a.group]? with
    | none =>
      rw [conflictSet, hg] at hw
      simp at hw
    | some set =>
      rw [conflictSet, hg] at hw
      exact ⟨set, mem_values_iff_getElem?.2 ⟨a.group, hg⟩,
        List.mem_filterMap.2 ⟨id, mem_values_iff_getElem?.2 ⟨a.rank, hw⟩, hid⟩⟩

/-- One token has one activation at a terminal. -/
theorem Consistent.unique (h : agenda.Consistent) {a b : Activation} (ha : a ∈ agenda.pending)
    (hb : b ∈ agenda.pending) (ht : a.terminal = b.terminal) (hk : a.token = b.token) : a = b := by
  obtain ⟨id, hid⟩ := h.mem_pending.1 ha
  obtain ⟨id', hid'⟩ := h.mem_pending.1 hb
  exact h.eq_of_token hid hid' (Prod.ext ht hk)

/-- What stands in a group stands there under its own place. -/
theorem Consistent.placed (h : agenda.Consistent) {group : String} {set : ConflictSet}
    (hset : agenda.groups[group]? = some set) {rank : Rank} {id : ActivationId} {a : Activation}
    (hrank : set[rank]? = some id) (ha : agenda.get? id = some a) :
    a.group = group ∧ a.rank = rank := by
  have hw : (agenda.conflictSet group)[rank]? = some id := by
    rw [conflictSet, hset]
    exact hrank
  obtain ⟨b, hb, hplace⟩ := h.waiting.1 hw
  obtain rfl := Option.some.inj (hb.symm.trans ha)
  exact hplace

/-- What waits is listed once. -/
theorem Consistent.nodup_pending (h : agenda.Consistent) : agenda.pending.Nodup := by
  rw [List.Nodup, pending, List.pairwise_flatMap, values_eq_map_toList]
  constructor
  · intro set hset
    obtain ⟨⟨group, set⟩, hmem, rfl⟩ := List.mem_map.1 hset
    have hset := Std.ExtTreeMap.mem_toList_iff_getElem?_eq_some.1 hmem
    rw [values_eq_map_toList, List.pairwise_filterMap, List.pairwise_map]
    refine Std.ExtTreeMap.distinct_keys_toList.imp_of_mem fun {e e'} he he' hne a ha b hb heq => ?_
    have hr := h.placed hset (Std.ExtTreeMap.mem_toList_iff_getElem?_eq_some.1 he) ha
    have hr' := h.placed hset (Std.ExtTreeMap.mem_toList_iff_getElem?_eq_some.1 he') hb
    exact hne (Std.LawfulEqCmp.compare_eq_iff_eq.2 (hr.2.symm.trans (heq ▸ hr'.2)))
  · rw [List.pairwise_map]
    refine Std.ExtTreeMap.distinct_keys_toList.imp_of_mem fun {e e'} he he' hne a ha b hb heq => ?_
    obtain ⟨id, hid, ha⟩ := List.mem_filterMap.1 ha
    obtain ⟨id', hid', hb⟩ := List.mem_filterMap.1 hb
    obtain ⟨rank, hrank⟩ := mem_values_iff_getElem?.1 hid
    obtain ⟨rank', hrank'⟩ := mem_values_iff_getElem?.1 hid'
    have hg := h.placed (Std.ExtTreeMap.mem_toList_iff_getElem?_eq_some.1 he) hrank ha
    have hg' := h.placed (Std.ExtTreeMap.mem_toList_iff_getElem?_eq_some.1 he') hrank' hb
    exact hne (Std.LawfulEqCmp.compare_eq_iff_eq.2 (hg.1.symm.trans (heq ▸ hg'.1)))

end Agenda

end RuleNet
