/-
  The order of a window.

  A memory keeps its members in the order of its window, and the position of each member. Both agree
  with what it holds, so the front of the order can be let go without looking at the members.

  * `Shelf.Ordered`: order, positions and members agree; they do whatever comes and goes.
  * `Shelf.Ordered.mem_expire`: a time window lets go exactly what it does not cover.
  * `Shelf.Ordered.mem_trim`, `Shelf.Ordered.size_trim`: a full window lets go the front of its
    order, and no more than it must.
  * `Shelf.Lined.queue_append`, `Shelf.Ordered.queue_take`, `Shelf.Ordered.queue_trim`: the order as a
    queue.
-/
import RuleNet.Proofs.Session.Timely

namespace RuleNet.Shelf

variable {shelf : Shelf} {alpha : AlphaNode} {h i : Handle} {p q : Int}

/-- The order, the positions and the members of a window agree. -/
structure Ordered (shelf : Shelf) : Prop where
  order : ∀ {p h}, (p, h) ∈ shelf.order ↔ shelf.positions[h]? = some p
  facts : ∀ {h}, h ∈ shelf.facts ↔ ∃ p, shelf.positions[h]? = some p

/-- A memory without members. -/
def empty : Shelf := ⟨∅, ∅, ∅, 0⟩

/-- A fact is put behind all that came before. -/
def append (shelf : Shelf) (h : Handle) : Shelf :=
  { shelf with arrivals := shelf.arrivals + 1 }.put h (shelf.arrivals + 1 : Nat)

theorem not_mem_empty : h ∉ empty.facts := Std.ExtTreeSet.not_mem_empty

namespace Ordered

theorem empty : Shelf.empty.Ordered where
  order {p h} := by
    rw [Shelf.empty, Std.ExtTreeMap.getElem?_empty]
    exact iff_of_false Std.ExtTreeSet.not_mem_empty nofun
  facts {h} := by
    rw [Shelf.empty, Std.ExtTreeMap.getElem?_empty]
    exact iff_of_false Std.ExtTreeSet.not_mem_empty (by simp)

/-- A member stands in the order once. -/
theorem unique (O : shelf.Ordered) (hp : (p, h) ∈ shelf.order) (hq : (q, h) ∈ shelf.order) :
    p = q := by
  rw [O.order] at hp hq
  exact Option.some.inj (hp.symm.trans hq)

/-- The members are what stands in the order. -/
theorem mem_iff (O : shelf.Ordered) : h ∈ shelf.facts ↔ ∃ p, (p, h) ∈ shelf.order := by
  simp only [O.facts, O.order]

theorem put (O : shelf.Ordered) (hno : h ∉ shelf.facts) (p : Int) : (shelf.put h p).Ordered where
  order {q i} := by
    have hfree : shelf.positions[h]? ≠ some q := fun hq => hno (O.facts.2 ⟨q, hq⟩)
    simp only [Shelf.put, Std.ExtTreeSet.mem_insert, Std.ExtTreeMap.getElem?_insert,
      Nat.compare_eq_eq, O.order]
    rw [@Std.LawfulEqCmp.compare_eq_iff_eq _ dictionary, Prod.mk.injEq]
    by_cases hhi : h = i
    · subst hhi
      simp [hfree]
    · simp [hhi]
  facts {i} := by
    simp only [Shelf.put, Std.ExtTreeMap.getElem?_insert, Nat.compare_eq_eq, IdSet.mem_insert,
      O.facts]
    by_cases hhi : h = i
    · subst hhi
      simp
    · simp [hhi, Ne.symm hhi]

theorem append (O : shelf.Ordered) (hno : h ∉ shelf.facts) : (shelf.append h).Ordered := by
  have hnext : Ordered { shelf with arrivals := shelf.arrivals + 1 } := ⟨O.order, O.facts⟩
  exact hnext.put hno _

theorem take (O : shelf.Ordered) (h : Handle) : (shelf.take h).Ordered := by
  unfold Shelf.take
  split
  · next hmem =>
    obtain ⟨p, hp⟩ := O.facts.1 (Std.ExtTreeSet.contains_iff_mem.1 hmem)
    simp only [hp]
    refine ⟨fun {q i} => ?_, fun {i} => ?_⟩
    · simp only [Std.ExtTreeSet.mem_erase, Std.ExtTreeMap.getElem?_erase, Nat.compare_eq_eq, O.order,
        ne_eq]
      rw [@Std.LawfulEqCmp.compare_eq_iff_eq _ dictionary, Prod.mk.injEq]
      by_cases hhi : h = i
      · subst hhi
        simp [hp]
      · simp [hhi]
    · simp only [Std.ExtTreeMap.getElem?_erase, Nat.compare_eq_eq, IdSet.mem_erase, O.facts]
      by_cases hhi : h = i
      · subst hhi
        simp
      · simp [hhi, Ne.symm hhi]
  · exact O

theorem takeAll (O : shelf.Ordered) (hs : List Handle) : (hs.foldl Shelf.take shelf).Ordered := by
  induction hs generalizing shelf with
  | nil => exact O
  | cons h rest ih => exact ih (O.take h)

theorem enter (O : shelf.Ordered) (hno : h ∉ shelf.facts) (alpha : AlphaNode) (entry : Entry) :
    (shelf.enter alpha h entry).Ordered := by
  unfold Shelf.enter
  split
  · exact O.put hno _
  · exact O.append hno

theorem receive (O : shelf.Ordered) (hno : h ∉ shelf.facts) (alpha : AlphaNode) (now : Moment)
    (entry : Entry) : (shelf.receive alpha now h entry).Ordered := by
  unfold Shelf.receive
  split
  · exact (O.enter hno alpha entry).takeAll _
  · exact O

theorem expire (O : shelf.Ordered) (alpha : AlphaNode) (now : Moment) :
    (shelf.expire alpha now).Ordered := O.takeAll _

end Ordered

/-! ## What stays in its place -/

/-- Members that stay keep their positions. -/
theorem mem_order_take (O : shelf.Ordered) :
    (p, i) ∈ (shelf.take h).order ↔ (p, i) ∈ shelf.order ∧ i ≠ h := by
  rw [(O.take h).order, O.order]
  unfold take
  split
  · simp only [Std.ExtTreeMap.getElem?_erase, Nat.compare_eq_eq]
    by_cases hhi : h = i
    · simp [hhi]
    · simp [hhi, Ne.symm hhi]
  · next hno =>
    refine (and_iff_left_of_imp fun hp => ?_).symm
    rintro rfl
    exact hno (Std.ExtTreeSet.contains_iff_mem.2 (O.facts.2 ⟨p, hp⟩))

theorem mem_order_takeAll (O : shelf.Ordered) {hs : List Handle} :
    (p, i) ∈ (hs.foldl take shelf).order ↔ (p, i) ∈ shelf.order ∧ i ∉ hs := by
  induction hs generalizing shelf with
  | nil => simp
  | cons h rest ih =>
    rw [List.foldl_cons, ih (O.take h), mem_order_take O, List.mem_cons, not_or, and_assoc]

theorem mem_order_put :
    (q, i) ∈ (shelf.put h p).order ↔ (q, i) = (p, h) ∨ (q, i) ∈ shelf.order := by
  rw [put, Std.ExtTreeSet.mem_insert, @Std.LawfulEqCmp.compare_eq_iff_eq _ dictionary, eq_comm]

theorem arrivals_takeAll (hs : List Handle) (shelf : Shelf) :
    (hs.foldl take shelf).arrivals = shelf.arrivals := by
  induction hs generalizing shelf with
  | nil => rfl
  | cons h rest ih =>
    rw [List.foldl_cons, ih]
    unfold take
    split
    · rfl
    · rfl

/-! ## Time windows -/

/-- A window that is none of time lets nothing go by age. -/
theorem expire_of_not_time (hwindow : ∀ length, alpha.window ≠ some (.time length)) (now : Moment) :
    shelf.expire alpha now = shelf := by
  unfold expire outdated
  split
  · next length heq => exact absurd heq (hwindow length)
  · rfl

theorem mem_takeWhile_iff_of_pairwise {α : Type} {f : α → Bool} {items : List α}
    (hmono : items.Pairwise fun a b => f b = true → f a = true) {b : α} :
    b ∈ items.takeWhile f ↔ b ∈ items ∧ f b = true :=
  ⟨fun hb => ⟨(List.takeWhile_sublist f).mem hb, List.all_eq_true.1 List.all_takeWhile b hb⟩,
    fun hb => mem_takeWhile_of_pairwise hmono hb.1 hb.2⟩

/-- The order of a window is by positions. -/
theorem pairwise_order (shelf : Shelf) :
    shelf.order.toList.Pairwise fun a b => a.1 ≤ b.1 :=
  shelf.order.ordered_toList.imp fun {a b} hlt => by
    rcases (Ordering.then_eq_lt.1 hlt).imp_right And.left with h | h
    · exact Int.le_of_lt (Int.compare_eq_lt.1 h)
    · exact Int.le_of_eq (Int.compare_eq_eq.1 h)

/-- A time window lets go exactly what it does not cover. -/
theorem Ordered.mem_expire (O : shelf.Ordered) {length : Span}
    (hwindow : alpha.window = some (.time length)) (now : Moment) :
    h ∈ (shelf.expire alpha now).facts ↔
      ∃ p, (p, h) ∈ shelf.order ∧ length.covers p now = true := by
  have hfront : h ∈ shelf.outdated alpha now ↔
      ∃ p, (p, h) ∈ shelf.order ∧ length.covers p now = false := by
    rw [outdated, hwindow, List.mem_map]
    have hmono : shelf.order.toList.Pairwise fun a b =>
        (!length.covers b.1 now) = true → (!length.covers a.1 now) = true :=
      shelf.pairwise_order.imp fun {a b} hle hb => by
        rw [Bool.not_eq_true', ← Bool.not_eq_true] at hb ⊢
        exact fun ha => hb (Span.covers_mono hle ha)
    constructor
    · rintro ⟨⟨p, i⟩, hmem, rfl⟩
      rw [mem_takeWhile_iff_of_pairwise hmono, Std.ExtTreeSet.mem_toList] at hmem
      exact ⟨p, hmem.1, by simpa using hmem.2⟩
    · rintro ⟨p, hp, hcovers⟩
      refine ⟨(p, h), ?_, rfl⟩
      rw [mem_takeWhile_iff_of_pairwise hmono, Std.ExtTreeSet.mem_toList]
      exact ⟨hp, by simpa using hcovers⟩
  rw [Shelf.expire, mem_takeAll, hfront, O.mem_iff]
  constructor
  · rintro ⟨⟨p, hp⟩, hno⟩
    refine ⟨p, hp, Decidable.byContradiction fun hcovers => ?_⟩
    exact hno ⟨p, hp, by simpa using hcovers⟩
  · rintro ⟨p, hp, hcovers⟩
    refine ⟨⟨p, hp⟩, ?_⟩
    rintro ⟨q, hq, hnot⟩
    rw [O.unique hp hq, hnot] at hcovers
    cases hcovers

/-! ## Length windows -/

/-- The members in the order of the window, the oldest first. -/
def queue (shelf : Shelf) : List Handle := shelf.order.toList.map Prod.snd

namespace Ordered

theorem mem_queue (O : shelf.Ordered) : h ∈ shelf.queue ↔ h ∈ shelf.facts := by
  rw [O.mem_iff, queue, List.mem_map]
  constructor
  · rintro ⟨⟨p, i⟩, hmem, rfl⟩
    exact ⟨p, Std.ExtTreeSet.mem_toList.1 hmem⟩
  · rintro ⟨p, hp⟩
    exact ⟨(p, h), Std.ExtTreeSet.mem_toList.2 hp, rfl⟩

theorem nodup_queue (O : shelf.Ordered) : shelf.queue.Nodup := by
  refine List.pairwise_map.2 (shelf.order.ordered_toList.imp_of_mem fun {a b} ha hb hlt heq => ?_)
  obtain ⟨p, h⟩ := a
  obtain ⟨q, i⟩ := b
  obtain rfl : h = i := heq
  have hpq := O.unique (Std.ExtTreeSet.mem_toList.1 ha) (Std.ExtTreeSet.mem_toList.1 hb)
  subst hpq
  rw [@Std.ReflCmp.compare_self _ dictionary] at hlt
  cases hlt

/-- As many stand in the order as there are members. -/
theorem length_queue (O : shelf.Ordered) : shelf.queue.length = shelf.facts.size := by
  have hperm : shelf.queue.Perm shelf.facts.toList :=
    (List.perm_ext_iff_of_nodup O.nodup_queue (IdSet.nodup_toList _)).2 fun h => by
      rw [O.mem_queue, Std.ExtTreeSet.mem_toList]
  rw [hperm.length_eq, Std.ExtTreeSet.length_toList]

end Ordered

/-- A window with room for so many lets go the front of its order. -/
def trim (shelf : Shelf) (capacity : Nat) : Shelf :=
  (shelf.queue.take (shelf.facts.size - capacity)).foldl take shelf

theorem receive_of_length {capacity : Nat} (hwindow : alpha.window = some (.length capacity))
    {now : Moment} {entry : Entry} (htakes : alpha.takes now entry = true) :
    shelf.receive alpha now h entry = (shelf.append h).trim capacity := by
  simp only [receive, htakes, if_true, surplus, enter, hwindow, trim, queue, List.map_take, append]

namespace Ordered

theorem trim (O : shelf.Ordered) (capacity : Nat) : (shelf.trim capacity).Ordered := O.takeAll _

/-- What stays is the back of the order. -/
theorem mem_trim (O : shelf.Ordered) {capacity : Nat} : h ∈ (shelf.trim capacity).facts ↔
    h ∈ shelf.queue.drop (shelf.facts.size - capacity) := by
  have hsplit := List.take_append_drop (shelf.facts.size - capacity) shelf.queue
  have hnodup : (shelf.queue.take (shelf.facts.size - capacity) ++
      shelf.queue.drop (shelf.facts.size - capacity)).Nodup := hsplit.symm ▸ O.nodup_queue
  rw [Shelf.trim, mem_takeAll, ← O.mem_queue]
  constructor
  · rintro ⟨hmem, hno⟩
    rw [← hsplit, List.mem_append] at hmem
    exact hmem.resolve_left hno
  · exact fun hmem => ⟨List.mem_of_mem_drop hmem, fun hfront =>
      (List.nodup_append.1 hnodup).2.2 h hfront h hmem rfl⟩

/-- No more goes than must. -/
theorem size_trim (O : shelf.Ordered) (capacity : Nat) :
    (shelf.trim capacity).facts.size = min capacity shelf.facts.size := by
  have hperm : (shelf.trim capacity).facts.toList.Perm
      (shelf.queue.drop (shelf.facts.size - capacity)) :=
    (List.perm_ext_iff_of_nodup (IdSet.nodup_toList _)
      (O.nodup_queue.sublist (List.drop_sublist _ _))).2 fun h => by
        rw [Std.ExtTreeSet.mem_toList, O.mem_trim]
  rw [← Std.ExtTreeSet.length_toList, hperm.length_eq, List.length_drop, O.length_queue]
  omega

/-- What goes stood before what stays. -/
theorem le_of_trim (O : shelf.Ordered) {capacity : Nat} (hp : (p, h) ∈ shelf.order)
    (hgone : h ∉ (shelf.trim capacity).facts) (hq : (q, i) ∈ shelf.order)
    (hkept : i ∈ (shelf.trim capacity).facts) : p ≤ q := by
  obtain ⟨n, hn⟩ : ∃ n, shelf.facts.size - capacity = n := ⟨_, rfl⟩
  rw [O.mem_trim, hn, queue, ← List.map_drop] at hgone hkept
  have hall := shelf.pairwise_order
  rw [← List.take_append_drop n shelf.order.toList] at hall
  have hfront : (p, h) ∈ shelf.order.toList.take n := by
    have hmem : (p, h) ∈ shelf.order.toList := Std.ExtTreeSet.mem_toList.2 hp
    rw [← List.take_append_drop n shelf.order.toList, List.mem_append] at hmem
    exact hmem.resolve_right fun hback => hgone (List.mem_map_of_mem hback)
  obtain ⟨⟨r, j⟩, hback, rfl⟩ := List.mem_map.1 hkept
  have hr : (r, j) ∈ shelf.order := Std.ExtTreeSet.mem_toList.1 (List.mem_of_mem_drop hback)
  rw [O.unique hq hr]
  exact (List.pairwise_append.1 hall).2.2 _ hfront _ hback

end Ordered

/-! ## Queues -/

theorem filter_not_mem_take {items : List Handle} (h : items.Nodup) (n : Nat) :
    (items.filter fun i => i ∉ items.take n) = items.drop n := by
  induction items generalizing n with
  | nil => simp
  | cons first rest ih =>
    obtain ⟨hfirst, hrest⟩ := List.nodup_cons.1 h
    cases n with
    | zero => exact List.filter_eq_self.2 fun i _ => by simp
    | succ n =>
      rw [List.take_succ_cons, List.drop_succ_cons, List.filter_cons, if_neg (by simp), ← ih hrest n]
      refine List.filter_congr fun i hi => ?_
      have hne : i ≠ first := fun heq => hfirst (heq ▸ hi)
      simp [hne]

namespace Ordered

/-- What a fact leaves behind keeps its order. -/
theorem queue_take (O : shelf.Ordered) (h : Handle) :
    (shelf.take h).queue = shelf.queue.filter fun i => i ≠ h := by
  have horder : (shelf.take h).order.toList =
      shelf.order.toList.filter fun member => member.2 ≠ h := by
    refine eq_of_ascending (r := fun a b => dictionary a b = .lt)
      (fun a b hab hba => ?_) (shelf.take h).order.ordered_toList
      (shelf.order.ordered_toList.filter _) fun member => ?_
    · exact Std.OrientedCmp.not_lt_of_lt hab hba
    · rw [List.mem_filter, Std.ExtTreeSet.mem_toList, Std.ExtTreeSet.mem_toList, mem_order_take O,
        decide_eq_true_eq]
  rw [queue, horder, queue, List.filter_map]
  rfl

theorem queue_takeAll (O : shelf.Ordered) (hs : List Handle) :
    (hs.foldl Shelf.take shelf).queue = shelf.queue.filter fun i => i ∉ hs := by
  induction hs generalizing shelf with
  | nil => exact (List.filter_eq_self.2 fun i _ => by simp).symm
  | cons h rest ih =>
    rw [List.foldl_cons, ih (O.take h), O.queue_take, List.filter_filter]
    refine List.filter_congr fun i _ => ?_
    simp [Bool.and_comm]

/-- When the first of those that are too many has gone, the others are too many. -/
theorem surplus_take (O : shelf.Ordered) {rest : List Handle}
    (h : shelf.surplus alpha = i :: rest) : (shelf.take i).surplus alpha = rest := by
  unfold surplus at h ⊢
  split at h
  · next capacity _ =>
    simp only [List.map_take] at h ⊢
    change shelf.queue.take _ = _ at h
    change (shelf.take i).queue.take _ = _
    rw [← (O.take i).length_queue, O.queue_take]
    have hnodup := O.nodup_queue
    rw [← O.length_queue] at h
    generalize shelf.queue = queue at h hnodup ⊢
    cases queue with
    | nil => simp at h
    | cons first q =>
      obtain ⟨k, hk⟩ : ∃ k, (first :: q).length - capacity = k + 1 :=
        Nat.exists_eq_succ_of_ne_zero fun hzero => by
          rw [hzero] at h
          cases h
      rw [hk, List.take_succ_cons] at h
      obtain ⟨rfl, rfl⟩ := List.cons.inj h
      have hfilter : ((first :: q).filter fun j => j ≠ first) = q := by
        rw [List.filter_cons, if_neg (by simp), List.filter_eq_self]
        intro j hj
        have hne : j ≠ first := fun heq => (List.nodup_cons.1 hnodup).1 (heq ▸ hj)
        exact decide_eq_true hne
      rw [hfilter]
      congr 1
      rw [List.length_cons] at hk
      omega
  · cases h

/-- A full window lets go the front of its queue. -/
theorem queue_trim (O : shelf.Ordered) (capacity : Nat) :
    (shelf.trim capacity).queue = shelf.queue.drop (shelf.facts.size - capacity) := by
  rw [Shelf.trim, O.queue_takeAll, filter_not_mem_take O.nodup_queue]

end Ordered

/-- Whatever stands in the order was put there at one of the arrivals. -/
structure Lined (shelf : Shelf) : Prop extends Ordered shelf where
  arrived : ∀ {p h}, (p, h) ∈ shelf.order → p ≤ shelf.arrivals

namespace Lined

theorem empty : Shelf.empty.Lined where
  toOrdered := .empty
  arrived hp := absurd hp Std.ExtTreeSet.not_mem_empty

theorem takeAll (L : shelf.Lined) (hs : List Handle) : (hs.foldl Shelf.take shelf).Lined where
  toOrdered := L.toOrdered.takeAll hs
  arrived hp := by
    rw [arrivals_takeAll]
    exact L.arrived ((mem_order_takeAll L.toOrdered).1 hp).1

theorem take (L : shelf.Lined) (h : Handle) : (shelf.take h).Lined := L.takeAll [h]

theorem trim (L : shelf.Lined) (capacity : Nat) : (shelf.trim capacity).Lined := L.takeAll _

theorem append (L : shelf.Lined) (hno : h ∉ shelf.facts) : (shelf.append h).Lined where
  toOrdered := L.toOrdered.append hno
  arrived {p i} hp := by
    rcases mem_order_put.1 hp with heq | hp
    · cases heq
      exact Int.le_refl _
    · exact Int.le_trans (L.arrived hp) (Int.ofNat_le.2 (Nat.le_succ _))

/-- What comes is put at the end of the queue. -/
theorem queue_append (L : shelf.Lined) (h : Handle) :
    (shelf.append h).queue = shelf.queue ++ [h] := by
  have horder : (shelf.append h).order.toList =
      shelf.order.toList ++ [(((shelf.arrivals + 1 : Nat) : Int), h)] := by
    refine eq_of_ascending (r := fun a b => dictionary a b = .lt)
      (fun a b hab hba => ?_) (shelf.append h).order.ordered_toList
      (List.pairwise_append.2 ⟨shelf.order.ordered_toList, List.pairwise_singleton _ _, ?_⟩)
      fun member => ?_
    · exact Std.OrientedCmp.not_lt_of_lt hab hba
    · rintro ⟨p, i⟩ hmem last hlast
      obtain rfl := List.mem_singleton.1 hlast
      have hle := L.arrived (Std.ExtTreeSet.mem_toList.1 hmem)
      have hlt : p < ((shelf.arrivals + 1 : Nat) : Int) :=
        Int.lt_of_le_of_lt hle (Int.ofNat_lt.2 (Nat.lt_succ_self _))
      exact Ordering.then_eq_lt.2 (.inl (Int.compare_eq_lt.2 hlt))
    · obtain ⟨p, i⟩ := member
      rw [List.mem_append, List.mem_singleton, Std.ExtTreeSet.mem_toList, Std.ExtTreeSet.mem_toList,
        Shelf.append, mem_order_put, or_comm]
  rw [queue, horder, List.map_append]
  rfl

end Lined

end RuleNet.Shelf
