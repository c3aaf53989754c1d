/-
  One length window, request by request.

  What a length window holds depends on what has happened, of which only the order counts in which
  facts came or changed.

  * `AlphaNode.qualifies`: whether dispatch and tests let a fact in.
  * `Shelving.Newest`: what is left out came before what is held. Requests keep this.
  * `Shelving.Full`: while no fact that qualifies goes, nothing is left out that there is room for.
-/
import RuleNet.Proofs.Session.Exact

namespace RuleNet

/-! ## Admission -/

/-- Whether a memory takes a fact, as far as dispatch and tests are concerned. -/
def AlphaNode.qualifies (alpha : AlphaNode) (entry : Entry) : Bool :=
  alpha.admits entry.fact && Test.allHold .blank entry.fact entry.moment alpha.tests

theorem AlphaNode.takes_of_length {alpha : AlphaNode} {capacity : Nat}
    (hwindow : alpha.window = some (.length capacity)) (now : Moment) (entry : Entry) :
    alpha.takes now entry = alpha.qualifies entry := by
  rw [takes, hwindow, Bool.and_true]
  rfl

/-- The live facts that qualify for a memory. -/
def WorkingMemory.qualified (memory : WorkingMemory) (alpha : AlphaNode) : List Handle :=
  (memory.entries.toList.filter fun e => alpha.qualifies e.2).map Prod.fst

namespace WorkingMemory

variable {memory : WorkingMemory} {alpha : AlphaNode}

theorem mem_qualified {h : Handle} : h ∈ memory.qualified alpha ↔
    ∃ entry, memory.entry? h = some entry ∧ alpha.qualifies entry = true := by
  rw [qualified, List.mem_map]
  constructor
  · rintro ⟨⟨i, entry⟩, hmem, rfl⟩
    obtain ⟨hlive, hq⟩ := List.mem_filter.1 hmem
    exact ⟨entry, Std.ExtTreeMap.mem_toList_iff_getElem?_eq_some.1 hlive, hq⟩
  · rintro ⟨entry, hlive, hq⟩
    exact ⟨(h, entry), List.mem_filter.2
      ⟨Std.ExtTreeMap.mem_toList_iff_getElem?_eq_some.2 hlive, hq⟩, rfl⟩

theorem nodup_qualified : (memory.qualified alpha).Nodup := by
  refine List.pairwise_map.2 (List.Pairwise.filter _ ?_)
  refine memory.entries.distinct_keys_toList.imp fun {a b} hne heq => hne ?_
  rw [heq]
  exact Std.ReflCmp.compare_self

end WorkingMemory

/-! ## One memory -/

namespace Shelving

variable {alpha : AlphaNode} {capacity : Nat} {now : Moment} {x y : Shelving}
  {earlier earlier' : Handle → Handle → Prop}

/-- What comes takes the place of what had its handle. -/
theorem bring_eq (x : Shelving) (alpha : AlphaNode) (now : Moment) (i : Handle) (entry : Entry) :
    x.bring alpha now i entry = ⟨fun j => if i = j then some entry else (x.remove i).stored? j,
      (x.bring alpha now i entry).shelf⟩ := by
  ext1
  · funext j
    show (if i = j then some entry else x.stored? j) =
      if i = j then some entry else if i = j then none else x.stored? j
    by_cases hij : i = j
    · rw [if_pos hij, if_pos hij]
    · rw [if_neg hij, if_neg hij, if_neg hij]
  · rfl

section
variable (hwindow : alpha.window = some (.length capacity))
include hwindow

theorem clear_of_length (x : Shelving) (now : Moment) (due : List Handle) :
    x.clear alpha now due = due.foldl remove x := by
  rw [clear, age, Shelf.expire_of_not_time]
  intro length
  rw [hwindow]
  exact nofun

theorem shelf_bring (x : Shelving) (i : Handle) (entry : Entry) :
    (x.bring alpha now i entry).shelf = if alpha.qualifies entry then
      ((x.shelf.take i).append i).trim capacity else x.shelf.take i := by
  have htakes := AlphaNode.takes_of_length hwindow now entry
  split
  · next hqual => exact Shelf.receive_of_length hwindow (htakes.trans hqual)
  · next hqual =>
    show (x.shelf.take i).receive .. = _
    rw [Shelf.receive, htakes, if_neg hqual]

end

/-- The members of a length window qualify, are kept in the order in which they came, and came later
    than whatever else qualifies. -/
structure Newest (alpha : AlphaNode) (earlier : Handle → Handle → Prop) (x : Shelving) : Prop where
  lined : x.shelf.Lined
  members : ∀ {h}, h ∈ x.shelf.facts →
    ∃ entry, x.stored? h = some entry ∧ alpha.qualifies entry = true
  ranked : ∀ {p q h i}, (p, h) ∈ x.shelf.order → (q, i) ∈ x.shelf.order → h ≠ i → p ≤ q →
    earlier h i
  outside : ∀ {h i entry}, x.stored? h = some entry → alpha.qualifies entry = true →
    h ∉ x.shelf.facts → i ∈ x.shelf.facts → earlier h i

namespace Newest

theorem empty : Newest alpha earlier ⟨fun _ => none, .empty⟩ where
  lined := .empty
  members hh := absurd hh Shelf.not_mem_empty
  ranked hp := absurd hp Std.ExtTreeSet.not_mem_empty
  outside he := by cases he

theorem ordered (N : Newest alpha earlier x) : x.shelf.Ordered := N.lined.toOrdered

/-- A fact that qualifies is a live one. -/
theorem live (N : Newest alpha earlier x) {p : Int} {h : Handle} (hp : (p, h) ∈ x.shelf.order) :
    ∃ entry, x.stored? h = some entry := by
  obtain ⟨entry, he, -⟩ := N.members (N.ordered.mem_iff.2 ⟨p, hp⟩)
  exact ⟨entry, he⟩

/-- Only the order of live facts matters. -/
theorem mono (N : Newest alpha earlier x) (hle : ∀ {h i entry entry'}, x.stored? h = some entry →
    x.stored? i = some entry' → earlier h i → earlier' h i) : Newest alpha earlier' x where
  lined := N.lined
  members := N.members
  ranked hp hq hne hpq := by
    obtain ⟨entry, he⟩ := N.live hp
    obtain ⟨entry', he'⟩ := N.live hq
    exact hle he he' (N.ranked hp hq hne hpq)
  outside he hqual hout hin := by
    obtain ⟨entry', he', -⟩ := N.members hin
    exact hle he he' (N.outside he hqual hout hin)

/-- A fact goes. -/
theorem remove (N : Newest alpha earlier x) (i : Handle) : Newest alpha earlier (x.remove i) := by
  refine ⟨N.lined.take i, fun {h} hh => ?_, fun hp hq hne hpq => ?_, fun he hqual hout hin => ?_⟩
  · obtain ⟨hmem, hne⟩ := Shelf.mem_take.1 hh
    obtain ⟨entry, he, hqual⟩ := N.members hmem
    exact ⟨entry, (if_neg (Ne.symm hne)).trans he, hqual⟩
  · exact N.ranked ((Shelf.mem_order_take N.ordered).1 hp).1
      ((Shelf.mem_order_take N.ordered).1 hq).1 hne hpq
  · obtain ⟨hne, he⟩ := stored?_remove.1 he
    exact N.outside he hqual (fun hmem => hout (Shelf.mem_take.2 ⟨hmem, Ne.symm hne⟩))
      (Shelf.mem_take.1 hin).1

theorem removeAll (N : Newest alpha earlier x) (due : List Handle) :
    Newest alpha earlier (due.foldl Shelving.remove x) := by
  induction due generalizing x with
  | nil => exact N
  | cons i rest ih => exact ih (N.remove i)

/-- The fact that has come last is put at the end. -/
theorem put (N : Newest alpha earlier x) {i : Handle} {entry : Entry} (hno : x.stored? i = none)
    (hqual : alpha.qualifies entry = true)
    (hnew : ∀ {h old}, x.stored? h = some old → earlier h i) :
    Newest alpha earlier
      ⟨fun j => if i = j then some entry else x.stored? j, x.shelf.append i⟩ := by
  have hfree : i ∉ x.shelf.facts := fun hi => by
    obtain ⟨old, he, -⟩ := N.members hi
    rw [hno] at he
    cases he
  have hne : ∀ {h old}, x.stored? h = some old → i ≠ h := by
    rintro h old he rfl
    rw [hno] at he
    cases he
  refine ⟨N.lined.append hfree, fun {h} hh => ?_, fun {p q h j} hp hq hhj hpq => ?_,
    fun {h j old} he hq hout hin => ?_⟩
  · rcases IdSet.mem_insert.1 hh with rfl | hh
    · exact ⟨entry, if_pos rfl, hqual⟩
    · obtain ⟨old, he, hold⟩ := N.members hh
      exact ⟨old, (if_neg (hne he)).trans he, hold⟩
  · rcases Shelf.mem_order_put.1 hp with heq | hp
    · cases heq
      rcases Shelf.mem_order_put.1 hq with heq' | hq
      · cases heq'
        exact absurd rfl hhj
      -- nothing stands behind what has come last
      · have hlast := Int.le_trans hpq (N.lined.arrived hq)
        exact absurd (Int.ofNat_le.1 hlast) (Nat.not_succ_le_self _)
    · obtain ⟨old, he⟩ := N.live hp
      rcases Shelf.mem_order_put.1 hq with heq' | hq
      · cases heq'
        exact hnew he
      · exact N.ranked hp hq hhj hpq
  · have hin' := IdSet.mem_insert.1 hin
    have hhi : i ≠ h := fun heq => hout (heq ▸ IdSet.mem_insert.2 (.inl rfl))
    change (if i = h then some entry else x.stored? h) = some old at he
    rw [if_neg hhi] at he
    rcases hin' with rfl | hj
    · exact hnew he
    · exact N.outside he hq (fun hh => hout (IdSet.mem_insert.2 (.inr hh))) hj

/-- The front of the order is let go. -/
theorem trim (N : Newest alpha earlier x) (capacity : Nat) :
    Newest alpha earlier ⟨x.stored?, x.shelf.trim capacity⟩ := by
  have hsub : ∀ {p h}, (p, h) ∈ (x.shelf.trim capacity).order → (p, h) ∈ x.shelf.order :=
    fun hp => ((Shelf.mem_order_takeAll N.ordered).1 hp).1
  have hstay : ∀ {h}, h ∈ (x.shelf.trim capacity).facts → h ∈ x.shelf.facts := fun hh =>
    (Shelf.mem_takeAll.1 hh).1
  refine ⟨N.lined.trim capacity, fun hh => N.members (hstay hh),
    fun hp hq hne hpq => N.ranked (hsub hp) (hsub hq) hne hpq, fun {h i entry} he hqual hout hin => ?_⟩
  by_cases hh : h ∈ x.shelf.facts
  · obtain ⟨p, hp⟩ := N.ordered.mem_iff.1 hh
    obtain ⟨q, hq⟩ := N.ordered.mem_iff.1 (hstay hin)
    refine N.ranked hp hq ?_ (N.ordered.le_of_trim hp hout hq hin)
    rintro rfl
    exact hout hin
  · exact N.outside he hqual hh (hstay hin)

/-- A fact that does not qualify comes. -/
theorem pass (N : Newest alpha earlier x) {i : Handle} {entry : Entry} (hno : x.stored? i = none)
    (hqual : alpha.qualifies entry = false) :
    Newest alpha earlier ⟨fun j => if i = j then some entry else x.stored? j, x.shelf⟩ := by
  refine ⟨N.lined, fun {h} hh => ?_, N.ranked, fun {h j old} he hq hout hin => ?_⟩
  · obtain ⟨old, he, hold⟩ := N.members hh
    refine ⟨old, (if_neg ?_).trans he, hold⟩
    rintro rfl
    rw [hno] at he
    cases he
  · dsimp only at he
    split at he
    · cases he
      rw [hqual] at hq
      cases hq
    · exact N.outside he hq hout hin

/-- A fact comes or changes, where this holds without it. -/
theorem bring {i : Handle} (N : Newest alpha earlier (x.remove i))
    (hwindow : alpha.window = some (.length capacity)) {entry : Entry}
    (hnew : ∀ {h old}, (x.remove i).stored? h = some old → earlier h i) :
    Newest alpha earlier (x.bring alpha now i entry) := by
  have hno : (x.remove i).stored? i = none := if_pos rfl
  rw [bring_eq, x.shelf_bring hwindow]
  split
  · next hqual => exact (N.put hno hqual hnew).trim capacity
  · next hqual => exact N.pass hno (Bool.not_eq_true _ ▸ hqual)

theorem clear (N : Newest alpha earlier x) (hwindow : alpha.window = some (.length capacity))
    (now : Moment) (due : List Handle) : Newest alpha earlier (x.clear alpha now due) := by
  rw [clear_of_length hwindow]
  exact N.removeAll due

/-- A request keeps this, where facts that keep their values keep their order, and come before one
    that does not. -/
theorem turn (N : Newest alpha earlier x) (hwindow : alpha.window = some (.length capacity))
    (ht : Turn alpha now x y)
    (hkeep : ∀ {h i}, y.stored? h = x.stored? h → y.stored? i = x.stored? i → earlier h i →
      earlier' h i)
    (hlast : ∀ {h i}, y.stored? h = x.stored? h → y.stored? i ≠ x.stored? i → earlier' h i) :
    Newest alpha earlier' y := by
  have hshrink : ∀ {z : Shelving}, Newest alpha earlier z →
      (∀ {h entry}, z.stored? h = some entry → x.stored? h = some entry) → y = z →
      Newest alpha earlier' y := fun {z} Z hsub hyz => by
    subst hyz
    exact Z.mono fun he he' => hkeep (he.trans (hsub he).symm) (he'.trans (hsub he').symm)
  have hcleared : ∀ {due h entry}, (x.clear alpha now due).stored? h = some entry →
      x.stored? h = some entry := fun he => (stored?_clear.1 he).1
  cases ht with
  | clear due => exact hshrink (N.clear hwindow now due) hcleared rfl
  | remove due i =>
    exact hshrink ((N.clear hwindow now due).remove i) (fun he => hcleared (stored?_remove.1 he).2) rfl
  | bring due i entry hnew =>
    have hbrought : ((x.clear alpha now due).bring alpha now i entry).stored? i = some entry :=
      if_pos rfl
    have hother : ∀ {h old}, ((x.clear alpha now due).remove i).stored? h = some old → i ≠ h ∧
        ((x.clear alpha now due).bring alpha now i entry).stored? h = x.stored? h :=
      fun {h old} he => by
        obtain ⟨hne, he⟩ := stored?_remove.1 he
        exact ⟨hne, (if_neg hne).trans (he.trans (hcleared he).symm)⟩
    -- without the fact that is brought, the rest is in order, and the new order comes on top
    have Z : Newest alpha earlier' ((x.clear alpha now due).remove i) :=
      ((N.clear hwindow now due).remove i).mono fun he he' =>
        hkeep (hother he).2 (hother he').2
    refine Z.bring hwindow fun {h old} he => hlast (hother he).2 ?_
    rw [hbrought]
    exact Ne.symm hnew

end Newest

/-! ## Room -/

/-- A window that has room leaves out nothing that qualifies. -/
def Full (alpha : AlphaNode) (capacity : Nat) (x : Shelving) : Prop :=
  x.shelf.facts.size < capacity → ∀ {h entry}, x.stored? h = some entry →
    alpha.qualifies entry = true → h ∈ x.shelf.facts

theorem size_remove (x : Shelving) (i : Handle) :
    (x.remove i).shelf.facts.size ≤ x.shelf.facts.size := by
  show (x.shelf.take i).facts.size ≤ _
  unfold Shelf.take
  split
  · exact Std.ExtTreeSet.size_erase_le
  · exact Nat.le_refl _

theorem size_removeAll (due : List Handle) (x : Shelving) :
    (due.foldl remove x).shelf.facts.size ≤ x.shelf.facts.size := by
  induction due generalizing x with
  | nil => exact Nat.le_refl _
  | cons i rest ih => exact Nat.le_trans (ih _) (x.size_remove i)

/-- A request leaves no more members than there is room for. -/
theorem size_turn (hwindow : alpha.window = some (.length capacity)) (N : Newest alpha earlier x)
    (ht : Turn alpha now x y) (hsize : x.shelf.facts.size ≤ capacity) :
    y.shelf.facts.size ≤ capacity := by
  have hclear : ∀ due, (x.clear alpha now due).shelf.facts.size ≤ capacity := fun due => by
    rw [clear_of_length hwindow]
    exact Nat.le_trans (size_removeAll due x) hsize
  cases ht with
  | clear due => exact hclear due
  | remove due i => exact Nat.le_trans (size_remove _ i) (hclear due)
  | bring due i entry =>
    rw [shelf_bring hwindow]
    split
    · have O : ((x.clear alpha now due).shelf.take i).Ordered :=
        ((N.clear hwindow now due).remove i).ordered
      rw [(O.append fun hi => (Shelf.mem_take.1 hi).2 rfl).size_trim]
      exact Nat.min_le_left _ _
    · exact Nat.le_trans (size_remove _ i) (hclear due)

namespace Full

/-- A fact that does not qualify goes, which no memory notices. -/
theorem remove (F : Full alpha capacity x) (N : Newest alpha earlier x) {i : Handle}
    (hnot : ∀ {entry}, x.stored? i = some entry → alpha.qualifies entry = false) :
    (x.remove i).shelf = x.shelf ∧ Full alpha capacity (x.remove i) := by
  have hfree : i ∉ x.shelf.facts := fun hi => by
    obtain ⟨entry, he, hqual⟩ := N.members hi
    rw [hnot he] at hqual
    cases hqual
  have hshelf : (x.remove i).shelf = x.shelf := Shelf.take_of_not_mem hfree
  refine ⟨hshelf, fun hroom h entry he hqual => ?_⟩
  rw [hshelf] at hroom ⊢
  exact F hroom (stored?_remove.1 he).2 hqual

theorem removeAll (F : Full alpha capacity x) (N : Newest alpha earlier x) {due : List Handle}
    (hnot : ∀ i ∈ due, ∀ {entry}, x.stored? i = some entry → alpha.qualifies entry = false) :
    Full alpha capacity (due.foldl Shelving.remove x) := by
  induction due generalizing x with
  | nil => exact F
  | cons i rest ih =>
    refine ih (F.remove N (hnot i List.mem_cons_self)).2 (N.remove i) fun j hj entry he => ?_
    exact hnot j (List.mem_cons_of_mem i hj) (stored?_remove.1 he).2

/-- A fact comes, or one that did not qualify changes. -/
theorem bring {i : Handle} (F : Full alpha capacity (x.remove i))
    (N : Newest alpha earlier (x.remove i)) (hwindow : alpha.window = some (.length capacity))
    (entry : Entry) : Full alpha capacity (x.bring alpha now i entry) := by
  intro hroom h e he hqual
  have hold : i ≠ h → (x.remove i).stored? h = some e := fun hne =>
    stored?_remove.2 ⟨hne, (if_neg hne).symm.trans he⟩
  rw [shelf_bring hwindow] at hroom ⊢
  split at hroom
  · next hentry =>
    have hfree : i ∉ (x.shelf.take i).facts := fun hi => (Shelf.mem_take.1 hi).2 rfl
    have O : ((x.shelf.take i).append i).Ordered := N.ordered.append hfree
    have hgrown : (((x.shelf.take i).facts).insert i).size = (x.shelf.take i).facts.size + 1 := by
      rw [Std.ExtTreeSet.size_insert, if_neg]
      exact fun hc => hfree (Std.ExtTreeSet.contains_iff_mem.1 hc)
    rw [O.size_trim] at hroom
    change min capacity ((x.shelf.take i).facts.insert i).size < capacity at hroom
    rw [hgrown] at hroom
    have hsmall : (x.shelf.take i).facts.size + 1 < capacity := by omega
    -- so there is nothing to let go
    rw [if_pos hentry, O.mem_trim]
    have hnone : ((x.shelf.take i).facts.insert i).size - capacity = 0 := by omega
    show h ∈ List.drop (((x.shelf.take i).facts.insert i).size - capacity) _
    rw [hnone, List.drop_zero, O.mem_queue]
    refine IdSet.mem_insert.2 ?_
    by_cases hih : i = h
    · exact .inl hih.symm
    · exact .inr (F (by show (x.shelf.take i).facts.size < capacity; omega) (hold hih) hqual)
  · next hentry =>
    rw [if_neg hentry]
    refine F hroom (hold ?_) hqual
    rintro rfl
    cases (if_pos rfl).symm.trans he
    exact hentry hqual

/-- A request leaves nothing out that there is room for, unless a fact that qualified goes. -/
theorem turn (F : Full alpha capacity x) (N : Newest alpha earlier x)
    (hwindow : alpha.window = some (.length capacity)) (ht : Turn alpha now x y)
    (hstay : ∀ {h entry}, x.stored? h = some entry → alpha.qualifies entry = true →
      y.stored? h = some entry) : Full alpha capacity y := by
  have hclear : ∀ {due}, (∀ i ∈ due, ∀ {entry}, x.stored? i = some entry →
      alpha.qualifies entry = false) → Full alpha capacity (x.clear alpha now due) :=
    fun {due} hnot => by
      rw [clear_of_length hwindow]
      exact F.removeAll N hnot
  have hcontra : ∀ {entry}, (alpha.qualifies entry = true → False) →
      alpha.qualifies entry = false := fun h => Bool.not_eq_true _ ▸ h
  cases ht with
  | clear due =>
    refine hclear fun i hi entry he => hcontra fun hqual => ?_
    exact (stored?_clear.1 (hstay he hqual)).2 hi
  | remove due i =>
    have hcleared : Full alpha capacity (x.clear alpha now due) := by
      refine hclear fun j hj entry he => hcontra fun hqual => ?_
      exact (stored?_clear.1 (stored?_remove.1 (hstay he hqual)).2).2 hj
    refine (hcleared.remove (N.clear hwindow now due) fun he => hcontra fun hqual => ?_).2
    exact (stored?_remove.1 (hstay (stored?_clear.1 he).1 hqual)).1 rfl
  | bring due i entry hnew =>
    have hkept : ∀ {j e}, x.stored? j = some e → alpha.qualifies e = true →
        i ≠ j ∧ (x.clear alpha now due).stored? j = some e := fun {j e} he hqual => by
      have hy := hstay he hqual
      have hij : i ≠ j := by
        rintro rfl
        exact hnew (he.trans (hy.symm.trans (if_pos rfl)))
      exact ⟨hij, (if_neg hij).symm.trans hy⟩
    have hcleared : Full alpha capacity (x.clear alpha now due) := by
      refine hclear fun j hj e he => hcontra fun hqual => ?_
      exact (stored?_clear.1 (hkept he hqual).2).2 hj
    have N' := N.clear hwindow now due
    refine (hcleared.remove N' fun he => hcontra fun hqual => ?_).2.bring (N'.remove i) hwindow entry
    exact (hkept (stored?_clear.1 he).1 hqual).1 rfl

end Full

end Shelving

end RuleNet
