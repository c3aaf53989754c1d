/-
  Two memories of one session.

  If one memory takes what another one takes and a property picks out, then it holds what the property
  picks out of the other one's members. Only if length windows count the members, it may hold more,
  which came before.

  * `AlphaNode.Narrows`: a memory takes what the property picks out.
  * `Shelving.Selects`, `Shelving.Trails`: it holds what the property picks out, and it holds at least
    that; every request keeps this.
  * `Session.Reached.selects`, `Session.Reached.trails`: so it is in every session.
-/
import RuleNet.Proofs.Session.Newest

namespace RuleNet

/-- A memory takes what another one takes and a property picks out. -/
structure AlphaNode.Narrows (beta alpha : AlphaNode) (P : Entry → Bool) : Prop where
  window : beta.window = alpha.window
  takes : ∀ now entry, beta.takes now entry = (alpha.takes now entry && P entry)

theorem AlphaNode.Narrows.unlimited {alpha beta : AlphaNode} {P : Entry → Bool}
    (h : beta.Narrows alpha P) (hu : alpha.Unlimited) : beta.Unlimited := fun capacity => by
  rw [h.window]
  exact hu capacity

namespace Shelving

variable {P : Entry → Bool} {alpha beta : AlphaNode} {x y : Shelving}

/-- A memory holds what the property picks out of the members of another one. -/
structure Selects (P : Entry → Bool) (x y : Shelving) : Prop where
  stored : y.stored? = x.stored?
  members : ∀ {h}, h ∈ y.shelf.facts ↔
    h ∈ x.shelf.facts ∧ ∃ entry, x.stored? h = some entry ∧ P entry = true

namespace Selects

theorem empty : Selects P ⟨fun _ => none, .empty⟩ ⟨fun _ => none, .empty⟩ where
  stored := rfl
  members {h} := by simp [Shelf.not_mem_empty]

/-- A fact goes from both. -/
theorem remove (S : Selects P x y) (i : Handle) : Selects P (x.remove i) (y.remove i) where
  stored := by rw [Shelving.remove, Shelving.remove, S.stored]
  members {h} := by
    rw [mem_remove, mem_remove, S.members]
    simp only [stored?_remove]
    constructor
    · rintro ⟨⟨hh, entry, he, hP⟩, hne⟩
      exact ⟨⟨hh, hne⟩, entry, ⟨Ne.symm hne, he⟩, hP⟩
    · rintro ⟨⟨hh, hne⟩, entry, ⟨-, he⟩, hP⟩
      exact ⟨⟨hh, entry, he, hP⟩, hne⟩

theorem removeAll (S : Selects P x y) (due : List Handle) :
    Selects P (due.foldl Shelving.remove x) (due.foldl Shelving.remove y) := by
  induction due generalizing x y with
  | nil => exact S
  | cons i rest ih => exact ih (S.remove i)

/-- Windows of one length let go the same. -/
theorem age (S : Selects P x y) (D : Dated alpha x) (D' : Dated beta y)
    (hwindow : beta.window = alpha.window) (now : Moment) :
    Selects P (x.age alpha now) (y.age beta now) where
  stored := S.stored
  members {h} := by
    rw [D'.mem_age, D.mem_age, S.members, S.stored, hwindow]
    exact and_right_comm

/-- A fact comes to the one if it comes to the other and is picked out. -/
theorem bring (S : Selects P x y) (N : beta.Narrows alpha P) (hu : alpha.Unlimited) (now : Moment)
    (i : Handle) (entry : Entry) :
    Selects P (x.bring alpha now i entry) (y.bring beta now i entry) where
  stored := by rw [Shelving.bring, Shelving.bring, S.stored]
  members {h} := by
    rw [mem_bring hu, mem_bring (N.unlimited hu)]
    by_cases hih : h = i
    · subst hih
      have hnew : (x.bring alpha now h entry).stored? h = some entry := if_pos rfl
      simp [N.takes, hnew]
    · have hkept : (x.bring alpha now i entry).stored? h = x.stored? h := if_neg (Ne.symm hih)
      rw [if_neg hih, if_neg hih, hkept, S.members]

/-- A request keeps this. -/
theorem move (S : Selects P x y) (D : Dated alpha x) (D' : Dated beta y) (N : beta.Narrows alpha P)
    (hu : alpha.Unlimited) (now : Moment) (motion : Motion) :
    Selects P (x.move alpha now motion) (y.move beta now motion) := by
  have hclear : ∀ due, Selects P (x.clear alpha now due) (y.clear beta now due) := fun due =>
    (S.removeAll due).age (D.removeAll due) (D'.removeAll due) N.window now
  cases motion with
  | clear due => exact hclear due
  | remove due i => exact (hclear due).remove i
  | bring due i entry => exact (hclear due).bring N hu now i entry

end Selects

theorem Dated.move (D : Dated alpha x) (hu : alpha.Unlimited) (now : Moment) (motion : Motion) :
    Dated alpha (x.move alpha now motion) := by
  cases motion with
  | clear due => exact D.clear now due
  | remove due i => exact (D.clear now due).remove i
  | bring due i entry => exact (D.clear now due).bring hu now i entry

/-! ## Length windows -/

/-- The members that a property picks out, in the order of the window. -/
def picked (x : Shelving) (P : Entry → Bool) : List Handle :=
  x.shelf.queue.filter fun h => (x.stored? h).any P

/-- What a property picks out of the members of a length window came last into another one. -/
structure Trails (P : Entry → Bool) (capacity : Nat) (x y : Shelving) : Prop where
  stored : y.stored? = x.stored?
  lined : x.shelf.Lined
  lined' : y.shelf.Lined
  size : x.shelf.facts.size ≤ capacity
  behind : x.picked P <:+ y.shelf.queue

section
variable {capacity : Nat}

/-- What is picked out of a full window came last, and is not more than there is room for. -/
theorem picked_trim {shelf : Shelf} (O : shelf.Ordered) (stored? : Handle → Option Entry)
    (P : Entry → Bool) (capacity : Nat) :
    picked ⟨stored?, shelf.trim capacity⟩ P <:+ picked ⟨stored?, shelf⟩ P ∧
      (picked ⟨stored?, shelf.trim capacity⟩ P).length ≤ capacity := by
  constructor
  · show List.filter _ (shelf.trim capacity).queue <:+ _
    rw [O.queue_trim]
    exact (List.drop_suffix _ _).filter _
  · have hlength := List.length_filter_le (fun h => (stored? h).any P) (shelf.trim capacity).queue
    rw [(O.trim capacity).length_queue, O.size_trim] at hlength
    exact Nat.le_trans hlength (Nat.min_le_left _ _)

/-- Facts that are not in a window do not matter. -/
theorem picked_free {shelf : Shelf} (O : shelf.Ordered) {i : Handle} (hno : i ∉ shelf.facts)
    (stored? : Handle → Option Entry) (entry : Entry) :
    picked ⟨fun j => if i = j then some entry else stored? j, shelf⟩ P =
      picked ⟨stored?, shelf⟩ P := by
  refine List.filter_congr fun h hh => ?_
  have hne : i ≠ h := by
    rintro rfl
    exact hno (O.mem_queue.1 hh)
  simp only [if_neg hne]

theorem picked_append {shelf : Shelf} (L : shelf.Lined) {i : Handle} (hno : i ∉ shelf.facts)
    (stored? : Handle → Option Entry) (entry : Entry) :
    picked ⟨fun j => if i = j then some entry else stored? j, shelf.append i⟩ P =
      picked ⟨stored?, shelf⟩ P ++ if P entry then [i] else [] := by
  have hlast : [i].filter (fun h => (if i = h then some entry else stored? h).any P) =
      if P entry then [i] else [] := by simp [List.filter_cons]
  rw [← picked_free L.toOrdered hno stored? entry, picked, L.queue_append, List.filter_append,
    hlast]
  rfl

namespace Trails

theorem empty : Trails P capacity ⟨fun _ => none, .empty⟩ ⟨fun _ => none, .empty⟩ where
  stored := rfl
  lined := .empty
  lined' := .empty
  size := Nat.zero_le _
  behind := List.nil_suffix

theorem mem (T : Trails P capacity x y) {h : Handle} (hh : h ∈ x.shelf.facts) {entry : Entry}
    (he : x.stored? h = some entry) (hP : P entry = true) : h ∈ y.shelf.facts := by
  rw [← T.lined'.mem_queue]
  refine T.behind.mem (List.mem_filter.2 ⟨T.lined.mem_queue.2 hh, ?_⟩)
  rw [he]
  exact hP

/-- A fact goes from both. -/
theorem remove (T : Trails P capacity x y) (i : Handle) :
    Trails P capacity (x.remove i) (y.remove i) where
  stored := by rw [Shelving.remove, Shelving.remove, T.stored]
  lined := T.lined.take i
  lined' := T.lined'.take i
  size := Nat.le_trans (x.size_remove i) T.size
  behind := by
    have hpicked : (x.remove i).picked P = (x.picked P).filter fun h => h ≠ i := by
      show List.filter _ (x.shelf.take i).queue = _
      rw [T.lined.queue_take, picked, List.filter_filter, List.filter_filter]
      refine List.filter_congr fun h _ => ?_
      by_cases hne : i = h
      · simp [hne]
      · simp [Shelving.remove, hne, Ne.symm hne]
    rw [hpicked]
    show _ <:+ (y.shelf.take i).queue
    rw [T.lined'.queue_take]
    exact T.behind.filter _

theorem removeAll (T : Trails P capacity x y) (due : List Handle) :
    Trails P capacity (due.foldl Shelving.remove x) (due.foldl Shelving.remove y) := by
  induction due generalizing x y with
  | nil => exact T
  | cons i rest ih => exact ih (T.remove i)

/-- A fact comes to the one if it comes to the other and is picked out. -/
theorem bring (T : Trails P capacity x y) (N : beta.Narrows alpha P)
    (hwindow : alpha.window = some (.length capacity)) (now : Moment) (i : Handle) (entry : Entry) :
    Trails P capacity (x.bring alpha now i entry) (y.bring beta now i entry) := by
  have hwindow' : beta.window = some (.length capacity) := N.window.trans hwindow
  have hqualifies : beta.qualifies entry = (alpha.qualifies entry && P entry) := by
    rw [← AlphaNode.takes_of_length hwindow now, ← AlphaNode.takes_of_length hwindow' now, N.takes]
  have R := T.remove i
  have hno : i ∉ (x.remove i).shelf.facts := fun hi => (Shelf.mem_take.1 hi).2 rfl
  have hno' : i ∉ (y.remove i).shelf.facts := fun hi => (Shelf.mem_take.1 hi).2 rfl
  have L := R.lined.append hno
  have L' := R.lined'.append hno'
  -- what is picked out of the fuller window is behind what is picked out of it before it is trimmed
  obtain ⟨hsuffix, hlength⟩ := picked_trim L.toOrdered
    (fun j => if i = j then some entry else (x.remove i).stored? j) P capacity
  rw [picked_append R.lined hno] at hsuffix
  rw [bring_eq x, bring_eq y, shelf_bring hwindow, shelf_bring hwindow', hqualifies]
  have hstored : (fun j => if i = j then some entry else (y.remove i).stored? j) =
      fun j => if i = j then some entry else (x.remove i).stored? j := by rw [R.stored]
  cases hqual : alpha.qualifies entry with
  | false =>
    refine ⟨hstored, R.lined, R.lined', R.size, ?_⟩
    rw [Bool.false_and, if_neg Bool.false_ne_true, if_neg Bool.false_ne_true]
    exact (picked_free R.lined.toOrdered hno _ entry).symm ▸ R.behind
  | true =>
    have hsize : ((x.remove i).shelf.append i |>.trim capacity).facts.size ≤ capacity := by
      rw [L.toOrdered.size_trim]
      exact Nat.min_le_left _ _
    rw [Bool.true_and, if_pos rfl]
    cases hP : P entry with
    | false =>
      rw [hP, if_neg Bool.false_ne_true, List.append_nil] at hsuffix
      rw [if_neg Bool.false_ne_true]
      exact ⟨hstored, L.trim capacity, R.lined', hsize, hsuffix.trans R.behind⟩
    | true =>
      rw [hP, if_pos rfl] at hsuffix
      rw [if_pos rfl]
      refine ⟨hstored, L.trim capacity, L'.trim capacity, hsize, ?_⟩
      obtain ⟨front, hfront⟩ := R.behind
      have hboth : (x.remove i).picked P ++ [i] <:+ ((y.remove i).shelf.append i).queue :=
        ⟨front, by rw [R.lined'.queue_append, ← hfront, List.append_assoc]⟩
      have hbehind := hsuffix.trans hboth
      have hlast := List.suffix_of_suffix_length_le hbehind
        (List.drop_suffix (((y.remove i).shelf.append i).facts.size - capacity) _) <| by
          have hall := hbehind.length_le
          rw [L'.toOrdered.length_queue] at hall
          rw [List.length_drop, L'.toOrdered.length_queue]
          omega
      rw [← L'.toOrdered.queue_trim] at hlast
      exact hlast

/-- A request keeps this. -/
theorem move (T : Trails P capacity x y) (N : beta.Narrows alpha P)
    (hwindow : alpha.window = some (.length capacity)) (now : Moment) (motion : Motion) :
    Trails P capacity (x.move alpha now motion) (y.move beta now motion) := by
  have hclear : ∀ due, Trails P capacity (x.clear alpha now due) (y.clear beta now due) :=
    fun due => by
      rw [clear_of_length hwindow, clear_of_length (N.window.trans hwindow)]
      exact T.removeAll due
  cases motion with
  | clear due => exact hclear due
  | remove due i => exact (hclear due).remove i
  | bring due i entry => exact (hclear due).bring N hwindow now i entry

end Trails

end

end Shelving

namespace Session

variable {base : RuleBase} {settings : Settings} {s : Session} {a b : AlphaId}
  {alpha beta : AlphaNode} {P : Entry → Bool}

/-- What two memories have in the beginning and every request keeps, they have in every session. -/
theorem Reached.lockstep (W : base.network.WellFormed) (h : Reached base settings s)
    (ha : base.network.alpha? a = some alpha) (hb : base.network.alpha? b = some beta)
    {Q : Shelving → Shelving → Prop} (hstart : Q ⟨fun _ => none, .empty⟩ ⟨fun _ => none, .empty⟩)
    (hmove : ∀ {x y} now motion, Q x y → Q (x.move alpha now motion) (y.move beta now motion)) :
    Q (s.shelving a) (s.shelving b) := by
  induction h with
  | start reading =>
    rw [shelving_start, shelving_start]
    exact hstart
  | @step s t h hs ih =>
    obtain ⟨hsteady, hbase, -⟩ := h.steady W
    rcases hs.turns hsteady (by rw [network, hbase]; exact W) with ⟨hsame, -⟩ | ⟨motion, -, hall⟩
    · rw [hsame, hsame]
      exact ih
    · rw [hall (by rw [network, hbase]; exact ha), hall (by rw [network, hbase]; exact hb)]
      exact hmove t.now motion ih

/-- A memory holds what the property picks out of the members of another one. -/
theorem Reached.selects (W : base.network.WellFormed) (h : Reached base settings s)
    (ha : base.network.alpha? a = some alpha) (hb : base.network.alpha? b = some beta)
    (hu : alpha.Unlimited) (N : beta.Narrows alpha P) :
    Shelving.Selects P (s.shelving a) (s.shelving b) :=
  (h.lockstep W ha hb (Q := fun x y => Shelving.Selects P x y ∧ x.Dated alpha ∧ y.Dated beta)
    ⟨.empty, .empty, .empty⟩ fun now motion ⟨S, D, D'⟩ =>
      ⟨S.move D D' N hu now motion, D.move hu now motion, D'.move (N.unlimited hu) now motion⟩).1

/-- What the property picks out of a length window is held by the other one. -/
theorem Reached.trails {capacity : Nat} (W : base.network.WellFormed)
    (h : Reached base settings s) (ha : base.network.alpha? a = some alpha)
    (hb : base.network.alpha? b = some beta) (hwindow : alpha.window = some (.length capacity))
    (N : beta.Narrows alpha P) : Shelving.Trails P capacity (s.shelving a) (s.shelving b) :=
  h.lockstep W ha hb .empty fun now motion T => T.move N hwindow now motion

/-- Whatever its window is, a memory holds what the property picks out of another one's members. -/
theorem Reached.mem_narrowed (W : base.network.WellFormed) (h : Reached base settings s)
    (ha : base.network.alpha? a = some alpha) (hb : base.network.alpha? b = some beta)
    (N : beta.Narrows alpha P) {i : Handle} (hi : i ∈ s.matching.members a) {entry : Entry}
    (he : s.store.entry? i = some entry) (hP : P entry = true) : i ∈ s.matching.members b := by
  by_cases hu : alpha.Unlimited
  · exact (h.selects W ha hb hu N).members.2 ⟨hi, entry, he, hP⟩
  · obtain ⟨capacity, hwindow⟩ := Classical.not_forall.1 hu
    exact (h.trails W ha hb (Classical.not_not.1 hwindow) N).mem hi he hP

end Session

end RuleNet
