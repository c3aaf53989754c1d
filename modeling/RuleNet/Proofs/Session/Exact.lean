/-
  What a memory holds, told from the facts.

  A memory that is no length window does not depend on what has happened: it holds the facts that it
  would take now. A look-up by a field finds the members that have the key now.

  * `Shelving.Exact`: members are the facts that the memory takes at a reading of the clock.
  * `Shelving.Exact.turn`: a request brings the members up to date.
  * `Session.alphas_of_reached`: so it is in every session with a manual clock.
  * `Session.lookUps_of_reached`: what look-ups find in every session, and what they miss.
-/
import RuleNet.Proofs.Matching.Stock
import RuleNet.Proofs.Network.Carried
import RuleNet.Proofs.Session.Pending
import RuleNet.Proofs.Session.Turns

namespace RuleNet

/-! ## Windows -/

theorem Moment.earlier_mono {now later : Moment} (hle : now ≤ later) (millis : Int) :
    now.earlier millis ≤ later.earlier millis := by
  have hdiff : now - millis ≤ later - millis := Int.sub_le_sub_right hle _
  have hmin : min Integer64.greatest (now - millis) ≤ min Integer64.greatest (later - millis) :=
    Int.le_min.2 ⟨Int.min_le_left _ _, Int.le_trans (Int.min_le_right _ _) hdiff⟩
  exact Int.max_le.2 ⟨Int.le_max_left _ _, Int.le_trans hmin (Int.le_max_right _ _)⟩

/-- A window is no length window. -/
def AlphaNode.Unlimited (alpha : AlphaNode) : Prop :=
  ∀ capacity, alpha.window ≠ some (.length capacity)

/-- What a memory takes at a later reading it would have taken before, unless it is too old by then. -/
theorem AlphaNode.takes_later {alpha : AlphaNode} {now later : Moment} (hle : now ≤ later)
    {entry : Entry} : alpha.takes later entry = true ↔ alpha.takes now entry = true ∧
      ∀ length, alpha.window = some (.time length) → length.covers entry.moment later = true := by
  rw [takes, takes]
  rcases hwindow : alpha.window with _ | ⟨length | capacity⟩
  · simp
  · simp only [Bool.and_eq_true, Option.some.injEq, Window.time.injEq, forall_eq']
    constructor
    · rintro ⟨hadmits, hcovers⟩
      refine ⟨⟨hadmits, ?_⟩, hcovers⟩
      rw [Span.covers, decide_eq_true_eq] at hcovers ⊢
      exact Int.le_trans (Moment.earlier_mono hle _) hcovers
    · exact fun h => ⟨h.1.1, h.2⟩
  · simp

theorem Shelf.receive_of_unlimited {alpha : AlphaNode} (hu : alpha.Unlimited) (shelf : Shelf)
    (now : Moment) (h : Handle) (entry : Entry) : shelf.receive alpha now h entry =
      if alpha.takes now entry then shelf.enter alpha h entry else shelf := by
  have hnone : (shelf.enter alpha h entry).surplus alpha = [] := by
    unfold surplus
    split
    · next capacity hwindow => exact absurd hwindow (hu capacity)
    · rfl
  rw [receive, hnone]
  rfl

theorem Shelf.mem_enter {shelf : Shelf} {alpha : AlphaNode} {h i : Handle} {entry : Entry} :
    i ∈ (shelf.enter alpha h entry).facts ↔ i = h ∨ i ∈ shelf.facts := by
  unfold enter
  split
  · exact IdSet.mem_insert
  · exact IdSet.mem_insert

namespace Shelving

variable {alpha : AlphaNode} {now later : Moment} {x y : Shelving}

/-- A time window keeps its members by their moments. -/
structure Dated (alpha : AlphaNode) (x : Shelving) : Prop where
  ordered : x.shelf.Ordered
  dated : ∀ {length p h}, alpha.window = some (.time length) → (p, h) ∈ x.shelf.order →
    ∃ entry, x.stored? h = some entry ∧ entry.moment = p

theorem mem_remove {i h : Handle} : h ∈ (x.remove i).shelf.facts ↔ h ∈ x.shelf.facts ∧ h ≠ i :=
  Shelf.mem_take

theorem mem_bring (hu : alpha.Unlimited) {i h : Handle} {entry : Entry} :
    h ∈ (x.bring alpha now i entry).shelf.facts ↔
      if h = i then alpha.takes now entry = true else h ∈ x.shelf.facts := by
  show h ∈ ((x.shelf.take i).receive alpha now i entry).facts ↔ _
  rw [Shelf.receive_of_unlimited hu]
  by_cases hih : h = i
  · subst hih
    have hgone : h ∉ (x.shelf.take h).facts := fun hh => (Shelf.mem_take.1 hh).2 rfl
    rw [if_pos rfl]
    split
    · next htakes => simp [Shelf.mem_enter, htakes]
    · next htakes => simp [hgone, htakes]
  · rw [if_neg hih]
    have hkept : h ∈ (x.shelf.take i).facts ↔ h ∈ x.shelf.facts := by simp [Shelf.mem_take, hih]
    split
    · rw [Shelf.mem_enter, or_iff_right hih, hkept]
    · exact hkept

namespace Dated

theorem empty : Dated alpha ⟨fun _ => none, .empty⟩ where
  ordered := .empty
  dated _ hp := absurd hp Std.ExtTreeSet.not_mem_empty

/-- A fact goes. -/
theorem remove (D : Dated alpha x) (i : Handle) : Dated alpha (x.remove i) where
  ordered := D.ordered.take i
  dated {length p h} hwindow hp := by
    obtain ⟨hp, hne⟩ := (Shelf.mem_order_take D.ordered).1 hp
    obtain ⟨entry, he, hmoment⟩ := D.dated hwindow hp
    exact ⟨entry, (if_neg (Ne.symm hne)).trans he, hmoment⟩

theorem removeAll (D : Dated alpha x) (due : List Handle) :
    Dated alpha (due.foldl Shelving.remove x) := by
  induction due generalizing x with
  | nil => exact D
  | cons i rest ih => exact ih (D.remove i)

/-- The window lets go what is too old. -/
theorem age (D : Dated alpha x) (now : Moment) : Dated alpha (x.age alpha now) where
  ordered := D.ordered.takeAll _
  dated hwindow hp := D.dated hwindow ((Shelf.mem_order_takeAll D.ordered).1 hp).1

theorem clear (D : Dated alpha x) (now : Moment) (due : List Handle) :
    Dated alpha (x.clear alpha now due) := (D.removeAll due).age now

/-- A window lets go the members that a time window does not reach back to. -/
theorem mem_age (D : Dated alpha x) {h : Handle} : h ∈ (x.age alpha now).shelf.facts ↔
    h ∈ x.shelf.facts ∧ ∀ {length entry}, alpha.window = some (.time length) →
      x.stored? h = some entry → length.covers entry.moment now = true := by
  show h ∈ (x.shelf.expire alpha now).facts ↔ _
  by_cases htime : ∃ length, alpha.window = some (.time length)
  · obtain ⟨length, hwindow⟩ := htime
    rw [D.ordered.mem_expire hwindow]
    constructor
    · rintro ⟨p, hp, hcovers⟩
      obtain ⟨entry, he, rfl⟩ := D.dated hwindow hp
      refine ⟨D.ordered.mem_iff.2 ⟨_, hp⟩, fun {length' entry'} hwindow' he' => ?_⟩
      cases hwindow.symm.trans hwindow'
      cases he.symm.trans he'
      exact hcovers
    · rintro ⟨hh, hcovers⟩
      obtain ⟨p, hp⟩ := D.ordered.mem_iff.1 hh
      obtain ⟨entry, he, rfl⟩ := D.dated hwindow hp
      exact ⟨entry.moment, hp, hcovers hwindow he⟩
  · have hnot : ∀ length, alpha.window ≠ some (.time length) := fun length hwindow =>
      htime ⟨length, hwindow⟩
    rw [Shelf.expire_of_not_time hnot]
    exact (and_iff_left fun {length _} hwindow => absurd hwindow (hnot length)).symm

/-- A fact comes or changes. -/
theorem bring (D : Dated alpha x) (hu : alpha.Unlimited) (now : Moment) (i : Handle)
    (entry : Entry) : Dated alpha (x.bring alpha now i entry) := by
  have D' := D.remove i
  have hgone : i ∉ (x.shelf.take i).facts := fun hi => (Shelf.mem_take.1 hi).2 rfl
  refine ⟨D'.ordered.receive hgone alpha now entry, fun {length p h} hwindow hp => ?_⟩
  change (p, h) ∈ ((x.shelf.take i).receive alpha now i entry).order at hp
  rw [Shelf.receive_of_unlimited hu] at hp
  have hold : (p, h) ∈ (x.shelf.take i).order →
      ∃ e, (x.bring alpha now i entry).stored? h = some e ∧ e.moment = p := fun hmem => by
    obtain ⟨e, he, hmoment⟩ := D'.dated hwindow hmem
    obtain ⟨hne, he⟩ := stored?_remove.1 he
    exact ⟨e, (if_neg hne).trans he, hmoment⟩
  split at hp
  · simp only [Shelf.enter, hwindow, Shelf.mem_order_put, Prod.mk.injEq] at hp
    rcases hp with ⟨rfl, rfl⟩ | hmem
    · exact ⟨entry, if_pos rfl, rfl⟩
    · exact hold hmem
  · exact hold hp

end Dated

/-- The members are the facts that the memory takes. -/
structure Exact (alpha : AlphaNode) (now : Moment) (x : Shelving) : Prop extends Dated alpha x where
  members : ∀ {h}, h ∈ x.shelf.facts ↔
    ∃ entry, x.stored? h = some entry ∧ alpha.takes now entry = true

namespace Exact

theorem empty : Exact alpha now ⟨fun _ => none, .empty⟩ where
  toDated := .empty
  members {h} := by simp [Shelf.not_mem_empty]

/-- A fact goes. -/
theorem remove (E : Exact alpha now x) (i : Handle) : Exact alpha now (x.remove i) where
  toDated := E.toDated.remove i
  members {h} := by
    simp only [mem_remove, E.members, stored?_remove]
    exact ⟨fun ⟨⟨entry, he, ht⟩, hne⟩ => ⟨entry, ⟨Ne.symm hne, he⟩, ht⟩,
      fun ⟨entry, ⟨hne, he⟩, ht⟩ => ⟨⟨entry, he, ht⟩, Ne.symm hne⟩⟩

theorem removeAll (E : Exact alpha now x) (due : List Handle) :
    Exact alpha now (due.foldl Shelving.remove x) := by
  induction due generalizing x with
  | nil => exact E
  | cons i rest ih => exact ih (E.remove i)

/-- Time goes on, and the window lets go what is too old. -/
theorem age (E : Exact alpha now x) (hle : now ≤ later) :
    Exact alpha later (x.age alpha later) where
  toDated := E.toDated.age later
  members {h} := by
    rw [E.mem_age, E.members]
    simp only [AlphaNode.takes_later hle]
    constructor
    · rintro ⟨⟨entry, he, ht⟩, hcovers⟩
      exact ⟨entry, he, ht, fun length hwindow => hcovers hwindow he⟩
    · rintro ⟨entry, he, ht, hcovers⟩
      refine ⟨⟨entry, he, ht⟩, fun {length entry'} hwindow he' => ?_⟩
      cases he.symm.trans he'
      exact hcovers length hwindow

/-- A fact comes or changes. -/
theorem bring (E : Exact alpha now x) (hu : alpha.Unlimited) (i : Handle) (entry : Entry) :
    Exact alpha now (x.bring alpha now i entry) where
  toDated := E.toDated.bring hu now i entry
  members {h} := by
    rw [mem_bring hu]
    by_cases hih : h = i
    · subst hih
      have hnew : (x.bring alpha now h entry).stored? h = some entry := if_pos rfl
      simp [hnew]
    · have hkept : (x.bring alpha now i entry).stored? h = x.stored? h := if_neg (Ne.symm hih)
      rw [if_neg hih, hkept, E.members]

/-- A request brings the members up to date. -/
theorem turn (E : Exact alpha now x) (hu : alpha.Unlimited) (hle : now ≤ later)
    (ht : Turn alpha later x y) : Exact alpha later y := by
  have hclear : ∀ due, Exact alpha later (x.clear alpha later due) := fun due =>
    (E.removeAll due).age hle
  cases ht with
  | clear due => exact hclear due
  | remove due i => exact (hclear due).remove i
  | bring due i entry => exact (hclear due).bring hu i entry

end Exact

end Shelving

/-! ## Sessions -/

namespace Session

variable {s : Session}

theorem shelving_start {base : RuleBase} (settings : Settings) (reading : Moment) (a : AlphaId) :
    (start base settings reading).shelving a = ⟨fun _ => none, .empty⟩ := by
  ext1
  · show WorkingMemory.entry? (applyEvents _).store = _
    rw [store_applyEvents]
    exact funext fun i => Std.ExtTreeMap.getElem?_empty
  · show (applyEvents _).matching.shelf a = _
    rw [shelf_applyEvents, Matching.shelf_congr (AlphasKept.start base.network _).alphas,
      Matching.shelf, Matching.alpha, Matching.empty, Std.ExtTreeMap.getElem?_empty]
    rfl

/-- A memory that is no length window holds the facts that it would take now. -/
theorem Reached.exact {base : RuleBase} {settings : Settings} (W : base.network.WellFormed)
    (hclock : settings.clock = .manual) (hlast : settings.clockStart ≤ Moment.last)
    (h : Reached base settings s) {a : AlphaId} {alpha : AlphaNode}
    (ha : base.network.alpha? a = some alpha) (hu : alpha.Unlimited) :
    Shelving.Exact alpha s.now (s.shelving a) := by
  have hall : Shelving.Exact alpha s.now (s.shelving a) ∧ s.now ≤ Moment.last ∧
      s.clock.isManual = true := by
    induction h with
    | start reading =>
      have hstart : (Session.start base settings reading).clock = .manual settings.clockStart := by
        show (applyEvents _).clock = _
        rw [clock_applyEvents, Clock.start, hclock]
      rw [shelving_start, now, hstart]
      exact ⟨.empty, hlast, rfl⟩
    | @step s t h hs ih =>
      obtain ⟨E, hle, hmanual⟩ := ih
      obtain ⟨hsteady, hbase, -⟩ := h.steady W
      obtain ⟨hforward, hle', hmanual'⟩ := hs.now_le hmanual hle
      refine ⟨?_, hle', hmanual'⟩
      rcases hs.turn hsteady (by rw [network, hbase]; exact W) (by rw [network, hbase]; exact ha)
        with ⟨hsame, hclock'⟩ | ht
      · have hnow : t.now = s.now := congrArg Clock.now (hclock' hmanual)
        rw [hsame, hnow]
        exact E
      · exact E.turn hu hforward ht
  exact hall.1

/-- In a session with a manual clock, a memory that is no length window holds exactly the live facts
    of its type that are dispatched to it and pass its tests with their current values and moments,
    and that a time window reaches back to. Look-ups find exactly the members that have the key. -/
theorem alphas_of_reached {declarations : Declarations} {base : RuleBase} {settings : Settings}
    (hb : declarations.build = .ok base) (hclock : settings.clock = .manual)
    (hlast : settings.clockStart ≤ Moment.last) (hs : Reached base settings s) {a : AlphaId}
    {alpha : AlphaNode} (ha : base.network.alpha? a = some alpha) :
    ((∀ capacity, alpha.window ≠ some (.length capacity)) → ∀ h,
      h ∈ (s.matching.alpha a).facts ↔ ∃ entry, s.store.entry? h = some entry ∧
        entry.fact.type = alpha.type ∧
        (∀ dispatch, alpha.dispatch = some dispatch →
          ((entry.fact.value dispatch.field).indexKey == dispatch.key) = true) ∧
        (∀ test ∈ alpha.tests, test.holds .blank entry.fact entry.moment = true) ∧
        ∀ length, alpha.window = some (.time length) →
          s.now.earlier length.millis ≤ entry.moment) ∧
    (∀ dispatch, alpha.dispatch = some dispatch → ∃ literal,
      .compare dispatch.field .equal (.literal literal) ∈ alpha.tests ∧
        dispatch.key = literal.indexKey) ∧
    ∀ field ∈ alpha.indexedFields, ∀ key h, h ∈ s.matching.lookUp a field key ↔
      h ∈ (s.matching.alpha a).facts ∧
        ((s.store.valueOf h field).indexKey == key.indexKey) = true := by
  have W := Declarations.wellFormed_build hb
  obtain ⟨hsteady, hbase, -⟩ := hs.steady W
  refine ⟨fun hu h => ?_, fun dispatch hdispatch => ?_, fun field hfield key h => ?_⟩
  · have E := hs.exact W hclock hlast ha hu
    show h ∈ (s.shelving a).shelf.facts ↔ _
    rw [E.members]
    refine exists_congr fun entry => and_congr_right fun _ => ?_
    rw [AlphaNode.takes, AlphaNode.admits, Test.allHold_eq, Bool.and_eq_true, Bool.and_eq_true,
      Bool.and_eq_true, List.all_eq_true, beq_iff_eq, and_assoc, and_assoc, eq_comm]
    refine and_congr_right fun _ => and_congr ?_ (and_congr_right fun _ => ?_)
    · cases alpha.dispatch with
      | none => simp
      | some dispatch =>
        have hswap : (dispatch.key == (entry.fact.value dispatch.field).indexKey) =
            ((entry.fact.value dispatch.field).indexKey == dispatch.key) := Value.equal_comm _ _
        simp [hswap]
    · rcases alpha.window with _ | ⟨length | capacity⟩
      · simp
      · simp [Span.covers]
      · simp
  · rw [(Declarations.carries_build hb).dispatched a alpha ha] at hdispatch
    exact Dispatch.choose?_key hdispatch
  · rw [Matching.lookUp_eq]
    exact hsteady.kept.stocked.found (by rw [network, hbase]; exact ha) hfield

/-- Sensors whose level has been nine within a tenth of a second. -/
def alarms : Declarations where
  types := [⟨"reading", [("level", .integer), ("sensor", .integer)], .event, none, none⟩,
    ⟨"sensor", [("id", .integer)], .fact, none, none⟩]
  rules := [⟨"alarm", 0, mainGroup, false, false, false,
    .all [.pattern ⟨"reading", none, [.compare "level" .equal (.literal (.integer 9))],
        [("s", "sensor")], some (.time (.ofMillis 100))⟩,
      .pattern ⟨"sensor", none, [.compare "id" .equal (.var "s")], [], none⟩],
    fun _ => .done⟩]
  queries := []

/-- The second of two readings is corrected, and the first one becomes too old. -/
def alarmRun (base : RuleBase) : Session :=
  (((((start base { Settings.standard with clock := .manual } 0).change
    (.insert ⟨"reading", [("level", .integer 9), ("sensor", .integer 1)]⟩)).change
    (.advance (.ofMillis 50))).change
    (.insert ⟨"reading", [("level", .integer 3), ("sensor", .integer 1)]⟩)).change
    (.update 2 ⟨"reading", [("level", .integer 9), ("sensor", .integer 1)]⟩)).change
    (.advance (.ofMillis 60))

/-- The corrected reading is in the window, which reaches back to it. -/
theorem alphas_of_reached_alarmRun : ∃ base, alarms.build = .ok base ∧
    Reached base { Settings.standard with clock := .manual } (alarmRun base) ∧
    ∃ alpha, base.network.alpha? 0 = some alpha ∧ alpha.window = some (.time (.ofMillis 100)) ∧
      1 ∉ ((alarmRun base).matching.alpha 0).facts ∧
      2 ∈ ((alarmRun base).matching.alpha 0).facts ∧
      ∃ entry, (alarmRun base).store.entry? 2 = some entry ∧
        (alarmRun base).now.earlier (Span.ofMillis 100).millis ≤ entry.moment := by
  obtain ⟨base, hb, hrun⟩ := Declarations.build_of_passes alarms
    (fun base => (base.network.alpha? 0).any fun alpha =>
      alpha.window == some (Window.time (.ofMillis 100)) &&
        !((alarmRun base).matching.alpha 0).facts.contains 1 &&
        ((alarmRun base).matching.alpha 0).facts.contains 2) (by decide +kernel)
  obtain ⟨alpha, ha, hrest⟩ := (Option.any_eq_true _ _).1 hrun
  simp only [Bool.and_eq_true, beq_iff_eq, Bool.not_eq_true', ← Bool.not_eq_true,
    Std.ExtTreeSet.contains_iff_mem] at hrest
  obtain ⟨⟨hwindow, hout⟩, hin⟩ := hrest
  have hs : Reached base { Settings.standard with clock := .manual } (alarmRun base) :=
    (((((Reached.start 0).change _).change _).change _).change _).change _
  obtain ⟨hmembers, -, -⟩ := alphas_of_reached hb rfl (by decide) hs ha
  obtain ⟨entry, he, -, -, -, hcovers⟩ := (hmembers (by rw [hwindow]; simp) 2).1 hin
  exact ⟨base, hb, hs, alpha, ha, hwindow, hout, hin, entry, he, hcovers _ hwindow⟩

/-! ## Keys -/

/-- In every session that requests lead to, facts are found by a field and left tokens for a fact just
    where the test accepts them and no integer in it is rounded. -/
theorem lookUps_of_reached {declarations : Declarations} {base : RuleBase} {settings : Settings}
    {s : Session} (hb : declarations.build = .ok base) (hs : Reached base settings s) (v w : Value) :
    (∀ a alpha, base.network.alpha? a = some alpha → ∀ field ∈ alpha.indexedFields, ∀ h,
      h ∈ s.matching.lookUp a field w ↔ h ∈ s.matching.members a ∧
        (Operator.equal.apply (s.store.valueOf h field) w &&
          !(s.store.valueOf h field).blurs w) = true) ∧
    ∀ n left, (s.matching.node n).leftKeys[left]? = some w.indexKey →
      (left ∈ (s.matching.node n).leftIndex.get v.indexKey ↔
        (Operator.equal.apply v w && !v.blurs w) = true) := by
  obtain ⟨hsteady, hbase, -⟩ := hs.steady (Declarations.wellFormed_build hb)
  refine ⟨fun a alpha ha field hfield h => ?_, fun n left hkey => ?_⟩
  · exact hsteady.kept.stocked.mem_lookUp (by rw [network, hbase]; exact ha) hfield
  · exact (hsteady.kept.sound.nodes n).mem_leftIndex hkey

/-- Ladders are to be as long as a ceiling is high. -/
def ceilings : Declarations where
  types := [⟨"ceiling", [("height", .double)], .fact, none, none⟩,
    ⟨"ladder", [("length", .integer)], .fact, none, none⟩]
  rules := [⟨"reach", 0, mainGroup, false, false, false,
    .all [.pattern ⟨"ceiling", none, [], [("x", "height")], none⟩,
      .pattern ⟨"ladder", none, [.compare "length" .equal (.var "x")], [], none⟩],
    fun _ => .done⟩]
  queries := []

/-- The height of a ceiling, which is the length of one ladder, and of another one when it is rounded. -/
def ceilingHeight : Value := .double ⟨0x4340000000000000⟩

def ceilingsRun (base : RuleBase) : Session :=
  (((start base { Settings.standard with clock := .manual } 0).change
    (.insert ⟨"ceiling", [("height", ceilingHeight)]⟩)).change
    (.insert ⟨"ladder", [("length", .integer 9007199254740992)]⟩)).change
    (.insert ⟨"ladder", [("length", .integer 9007199254740993)]⟩)

/-- The second ladder passes the test, but neither is it found for the ceiling, nor the ceiling for it. -/
theorem keys_of_looseEq_ceilingsRun : ∃ base, ceilings.build = .ok base ∧
    Reached base { Settings.standard with clock := .manual } (ceilingsRun base) ∧
    Operator.equal.apply (.integer 9007199254740993) ceilingHeight = true ∧
    2 ∈ (ceilingsRun base).matching.lookUp 1 "length" ceilingHeight ∧
    3 ∉ (ceilingsRun base).matching.lookUp 1 "length" ceilingHeight ∧
    1 ∈ ((ceilingsRun base).matching.node 1).leftIndex.get
      (Value.integer 9007199254740992).indexKey ∧
    1 ∉ ((ceilingsRun base).matching.node 1).leftIndex.get
      (Value.integer 9007199254740993).indexKey := by
  obtain ⟨base, hb, hrun⟩ := Declarations.build_of_passes ceilings
    (fun base => (base.network.alpha? 1).any (fun alpha : AlphaNode =>
        alpha.indexedFields.contains "length") &&
      ((ceilingsRun base).matching.members 1).contains 2 &&
      decide ((ceilingsRun base).store.valueOf 2 "length" = .integer 9007199254740992 ∧
        (ceilingsRun base).store.valueOf 3 "length" = .integer 9007199254740993 ∧
        ((ceilingsRun base).matching.node 1).leftKeys[1]? = some ceilingHeight.indexKey))
    (by decide +kernel)
  simp only [Bool.and_eq_true, decide_eq_true_eq, Std.ExtTreeSet.contains_iff_mem] at hrun
  obtain ⟨⟨halpha, hmember⟩, hshort, hlong, hkey⟩ := hrun
  obtain ⟨alpha, ha, hfield⟩ := (Option.any_eq_true _ _).1 halpha
  have hs : Reached base { Settings.standard with clock := .manual } (ceilingsRun base) :=
    (((Reached.start 0).change _).change _).change _
  obtain ⟨hsteady, hbase, -⟩ := hs.steady (Declarations.wellFormed_build hb)
  have ha : (ceilingsRun base).network.alpha? 1 = some alpha := by rw [network, hbase, ha]
  obtain ⟨-, -, hfacts, hlefts⟩ :=
    Value.keys_of_looseEq (.integer 9007199254740992) ceilingHeight
  obtain ⟨-, -, -, hlefts'⟩ := Value.keys_of_looseEq (.integer 9007199254740993) ceilingHeight
  have hfound := hfacts _ _ _ hsteady.kept.stocked 1 alpha ha "length" (List.contains_iff_mem.1 hfield)
  refine ⟨base, hb, hs, by decide +kernel, (hfound 2).2 ⟨hmember, ?_⟩, fun h => ?_,
    (hlefts _ _ (hsteady.kept.sound.nodes 1) 1 hkey).2 (by decide +kernel), fun h => ?_⟩
  · rw [hshort]
    decide +kernel
  · have hpasses := ((hfound 3).1 h).2
    rw [hlong] at hpasses
    exact absurd hpasses (by decide +kernel)
  · exact absurd ((hlefts' _ _ (hsteady.kept.sound.nodes 1) 1 hkey).1 h) (by decide +kernel)

end Session

end RuleNet
