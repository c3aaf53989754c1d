/-
  A query sees the synchronised session.

  A query passes over what is overdue and what is too old for a window. A synchronisation lets just
  that go, so that a query finds the same rows before and after it.

  * `QueryView.Clears`: all that a view passes over has gone from another one.
  * `QueryView.Clears.rows_eq`: then both give the same rows, if look-ups are answered by indexes.
  * `Session.Steady.mem_synchronize`: what a synchronisation leaves in a memory.
  * `Session.query_of_reached`: queries answer as they do after a synchronisation, whatever the clock
    shows.
-/
import RuleNet.Proofs.Query.Indexed
import RuleNet.Proofs.Query.Matched
import RuleNet.Proofs.Session.Lockstep
import RuleNet.Proofs.Session.Overdue

namespace RuleNet

namespace QueryView

variable {v v' : QueryView} {source : Source} {row : Row} {h : Handle}

/-- All that a view passes over has gone from another one, and nothing else. -/
structure Clears (v v' : QueryView) : Prop where
  net : v'.net = v.net
  members : ∀ {a h}, h ∈ v'.matching.members a ↔ h ∈ v.matching.members a ∧ v.isCurrent a h = true
  current : ∀ {a h}, h ∈ v'.matching.members a → v'.isCurrent a h = true
  store : ∀ {h}, v.expiry.isExpired h v.now = false → v'.store.entry? h = v.store.entry? h
  stocked : Stocked v.net v.store v.matching
  stocked' : Stocked v'.net v'.store v'.matching

/-- The facts of a row are not overdue. -/
def Holds (v : QueryView) (row : Row) : Prop :=
  ∀ {name h}, row.facts.find? name = some h → v.expiry.isExpired h v.now = false

/-- What counts at a time is not overdue. -/
theorem undue_of_isCurrent {a : AlphaId} (h' : v.isCurrent a h = true) :
    v.expiry.isExpired h v.now = false := by
  unfold isCurrent at h'
  rw [Bool.and_eq_true, Bool.not_eq_true'] at h'
  exact h'.1

/-- A live fact counts if it is not overdue, and not too old for a time window. -/
theorem isCurrent_iff {a : AlphaId} {alpha : AlphaNode} {entry : Entry}
    (ha : v.net.alpha? a = some alpha) (he : v.store.entry? h = some entry) :
    v.isCurrent a h = true ↔ v.expiry.isExpired h v.now = false ∧
      ∀ {length}, alpha.window = some (.time length) →
        length.covers entry.moment v.now = true := by
  unfold isCurrent
  rw [Bool.and_eq_true, Bool.not_eq_true', ha, Option.bind_some]
  refine and_congr_right fun _ => ?_
  split
  · next length hwindow =>
    rw [WorkingMemory.moment?, he, Option.map_some, Option.any_some]
    constructor
    · intro hcovers length' hwindow'
      cases hwindow.symm.trans hwindow'
      exact hcovers
    · exact fun hall => hall hwindow
  · next hnot => exact iff_of_true rfl fun {length} hwindow => absurd hwindow (hnot length)

theorem mem_members_current (hm : h ∈ v.members source row) : v.isCurrent source.alpha h = true := by
  unfold members at hm
  exact (List.mem_filter.1 hm).2

/-- A step that does not choose a fact leaves the facts of the row. -/
theorem Holds.pass? (hrow : v.Holds row) {step : PlanStep} {passed : Row}
    (h : v.pass? row step = some passed) : v.Holds passed := by
  have hfacts : passed.facts = row.facts := by
    cases step with
    | each source factVar fieldVars => cases h
    | accumulate source fold result having =>
      obtain ⟨value, -, rfl⟩ := Option.map_eq_some_iff.1 h
      rfl
    | absent source | present source | predicate p =>
      simp only [QueryView.pass?, Option.ite_none_right_eq_some, Option.ite_none_left_eq_some,
        Option.some.injEq] at h
      rw [h.2]
  intro name i hi
  exact hrow (hfacts ▸ hi)

namespace Clears

variable (C : v.Clears v')
include C

theorem fact? (hundue : v.expiry.isExpired h v.now = false) : v'.store.fact? h = v.store.fact? h := by
  rw [WorkingMemory.fact?, WorkingMemory.fact?, C.store hundue]

theorem valueOf (hundue : v.expiry.isExpired h v.now = false) (field : String) :
    v'.store.valueOf h field = v.store.valueOf h field := by
  rw [WorkingMemory.valueOf, WorkingMemory.valueOf, C.fact? hundue]

/-- References stand for the same. -/
theorem refer_eq (hrow : v.Holds row) : v'.refer row = v.refer row := by
  have hvalue : (v'.refer row).value = (v.refer row).value := by
    funext reference
    cases reference with
    | value name => rfl
    | fact name => rfl
    | field name field =>
      simp only [refer]
      cases hfind : row.facts.find? name with
      | none => rfl
      | some h => exact C.valueOf (hrow hfind) field
  have hmoment : (v'.refer row).moment = (v.refer row).moment := by
    funext reference
    cases reference with
    | value name => rfl
    | field name field => rfl
    | fact name =>
      simp only [refer]
      cases hfind : row.facts.find? name with
      | none => rfl
      | some h =>
        rw [Option.bind_some, Option.bind_some, WorkingMemory.moment?, WorkingMemory.moment?,
          C.store (hrow hfind)]
  calc v'.refer row = ⟨(v'.refer row).value, (v'.refer row).moment⟩ := rfl
    _ = v.refer row := by rw [hvalue, hmoment]

/-- A source offers the same facts. -/
theorem members_eq (hrow : v.Holds row) (hfind : ∀ field reference,
    source.lookUp = some (field, reference) → v.net.Findable source.alpha field) :
    v'.members source row = v.members source row := by
  refine eq_of_ascending (fun i j hij hji => Nat.lt_asymm hij hji) (pairwise_members _ _)
    (pairwise_members _ _) fun h => ?_
  have hboth : h ∈ v'.matching.members source.alpha ∧ v'.isCurrent source.alpha h = true ↔
      h ∈ v.matching.members source.alpha ∧ v.isCurrent source.alpha h = true :=
    (and_iff_left_of_imp C.current).trans C.members
  unfold QueryView.members
  dsimp only
  rw [List.mem_filter, List.mem_filter]
  cases hl : source.lookUp with
  | none =>
    simp only [Std.ExtTreeSet.mem_toList]
    exact hboth
  | some found =>
    obtain ⟨field, reference⟩ := found
    obtain ⟨alpha, halpha, hindexed⟩ := hfind field reference hl
    simp only [Std.ExtTreeSet.mem_toList, Matching.lookUp_eq, C.refer_eq hrow]
    rw [C.stocked.found halpha hindexed, C.stocked'.found (C.net ▸ halpha) hindexed]
    constructor
    · rintro ⟨⟨hmem, hkey⟩, hcurrent⟩
      obtain ⟨hmem, hcurrent⟩ := hboth.1 ⟨hmem, hcurrent⟩
      rw [C.valueOf (undue_of_isCurrent hcurrent)] at hkey
      exact ⟨⟨hmem, hkey⟩, hcurrent⟩
    · rintro ⟨⟨hmem, hkey⟩, hcurrent⟩
      rw [← C.valueOf (undue_of_isCurrent hcurrent)] at hkey
      obtain ⟨hmem, hcurrent⟩ := hboth.2 ⟨hmem, hcurrent⟩
      exact ⟨⟨hmem, hkey⟩, hcurrent⟩

/-- A fact that counts passes the same tests. -/
theorem passes_eq (hrow : v.Holds row) (hundue : v.expiry.isExpired h v.now = false) :
    v'.passes source row h = v.passes source row h := by
  unfold passes
  rw [C.store hundue, C.refer_eq hrow]

theorem partners_eq (hrow : v.Holds row) (hfind : ∀ field reference,
    source.lookUp = some (field, reference) → v.net.Findable source.alpha field) :
    v'.partners source row = v.partners source row := by
  unfold QueryView.partners
  rw [C.members_eq hrow hfind]
  exact List.filter_congr fun h hm =>
    C.passes_eq hrow (undue_of_isCurrent (mem_members_current hm))

/-- A fact that counts extends a row in the same way, and the facts of the new row count. -/
theorem extend?_eq (hrow : v.Holds row) (hundue : v.expiry.isExpired h v.now = false)
    (factVar : Option String) (fieldVars : List (String × String)) :
    v'.extend? source factVar fieldVars row h = v.extend? source factVar fieldVars row h ∧
      ∀ {extended}, v.extend? source factVar fieldVars row h = some extended →
        v.Holds extended := by
  refine ⟨?_, fun {extended} hextended => ?_⟩
  · unfold extend?
    rw [C.passes_eq hrow hundue, C.fact? hundue]
  · unfold extend? at hextended
    obtain ⟨-, -, hextended⟩ := Option.bind_eq_some_iff.1 hextended
    obtain ⟨fact, -, hextended⟩ := Option.bind_eq_some_iff.1 hextended
    cases hextended
    intro name i hi
    cases factVar with
    | none => exact hrow hi
    | some var =>
      dsimp only at hi
      rw [Entries.find?_insert] at hi
      split at hi
      · cases hi
        exact hundue
      · exact hrow hi

/-- A fold of the same facts has the same value. -/
theorem folded?_eq (hrow : v.Holds row) (hfind : ∀ field reference,
    source.lookUp = some (field, reference) → v.net.Findable source.alpha field) (fold : Fold)
    (having : Option (Operator × TestOperand Reference)) :
    v'.folded? source fold having row = v.folded? source fold having row := by
  unfold folded?
  rw [C.partners_eq hrow hfind, C.refer_eq hrow]
  refine congrArg (fun items : List (Handle × Value) => Option.filter _
    (Accumulator.ofList fold items).result?) (List.map_congr_left fun h hm => ?_)
  have hcurrent := mem_members_current (List.mem_filter.1 hm).1
  cases fold.field? with
  | none => rfl
  | some field => exact congrArg (h, ·) (C.valueOf (undue_of_isCurrent hcurrent) field)

/-- A step that does not choose a fact does the same. -/
theorem pass?_eq (hrow : v.Holds row) {step : PlanStep} (hi : v.net.Indexes step) :
    v'.pass? row step = v.pass? row step := by
  cases step with
  | each source factVar fieldVars => rfl
  | absent source => simp only [pass?, C.partners_eq hrow (hi source rfl)]
  | present source => simp only [pass?, C.partners_eq hrow (hi source rfl)]
  | accumulate source fold result having =>
    simp only [pass?, C.folded?_eq hrow (hi source rfl)]
  | predicate p => rfl

/-- Steps find the same rows in the same order. -/
theorem rows_eq {steps : List PlanStep} (hsteps : ∀ step ∈ steps, v.net.Indexes step)
    (hrow : v.Holds row) : v'.rows steps row = v.rows steps row := by
  induction steps generalizing row with
  | nil => rfl
  | cons step rest ih =>
    have hi := hsteps step List.mem_cons_self
    have hrest : ∀ {row}, v.Holds row → v'.rows rest row = v.rows rest row := fun hrow =>
      ih (fun step hmem => hsteps step (List.mem_cons_of_mem _ hmem)) hrow
    by_cases heach : ∃ source factVar fieldVars, step = .each source factVar fieldVars
    · obtain ⟨source, factVar, fieldVars, rfl⟩ := heach
      rw [rows, rows, C.members_eq hrow (hi source rfl)]
      refine List.flatMap_congr fun h hm => ?_
      have hundue := undue_of_isCurrent (mem_members_current hm)
      obtain ⟨hsame, hextended⟩ :=
        @extend?_eq v v' source row h C hrow hundue factVar fieldVars
      rw [hsame]
      cases he : v.extend? source factVar fieldVars row h with
      | none => rfl
      | some extended => exact hrest (hextended he)
    · have hnot : ∀ source factVar fieldVars, step ≠ .each source factVar fieldVars :=
        fun source factVar fieldVars h => heach ⟨source, factVar, fieldVars, h⟩
      rw [rows_cons, rows_cons v, rows_pass hnot, rows_pass hnot, C.pass?_eq hrow hi]
      refine List.flatMap_congr fun passed hm => ?_
      exact hrest (hrow.pass? (Option.mem_toList.1 hm))

/-- A plan finds the same rows in the same order. -/
theorem allRows_eq {plan : Plan} (hplan : v.net.IndexesAll plan) (params : List Value) :
    v'.allRows plan params = v.allRows plan params :=
  List.flatMap_congr fun steps hsteps => C.rows_eq (hplan steps hsteps) fun hfind => by cases hfind

end Clears

end QueryView

namespace Session

variable {s : Session} {base : RuleBase} {settings : Settings}

/-- The memories of a session keep the members of their time windows by their moments. -/
def Dated (s : Session) : Prop :=
  ∀ {a alpha}, s.network.alpha? a = some alpha → alpha.Unlimited → (s.shelving a).Dated alpha

/-- So they do in every session, whatever its clock. -/
theorem Reached.dated (W : base.network.WellFormed) (h : Reached base settings s) : s.Dated := by
  intro a alpha ha hu
  rw [network, (h.steady W).2.1] at ha
  exact h.lockstep W ha ha (Q := fun x _ => x.Dated alpha) .empty fun now motion D =>
    D.move hu now motion

/-- Whether a fact is overdue is read off the schedule. -/
theorem Punctual.not_mem_due (h : s.Punctual) {i : Handle} :
    i ∉ s.expiry.due s.now ↔ s.expiry.isExpired i s.now = false := by
  rw [← Bool.not_eq_true, not_iff_not, h.mem_due, h.isExpired]

/-- What a synchronisation leaves in a memory: what is neither overdue nor too old. -/
theorem Steady.mem_synchronize (hs : s.Steady) (W : s.network.WellFormed) (hdated : s.Dated)
    {a : AlphaId} {alpha : AlphaNode} (ha : s.network.alpha? a = some alpha) {h : Handle} :
    h ∈ s.synchronize.matching.members a ↔ h ∈ s.matching.members a ∧
      h ∉ s.expiry.due s.now ∧ ∀ {length entry}, alpha.window = some (.time length) →
        s.store.entry? h = some entry → length.covers entry.moment s.now = true := by
  have hshelf := congrArg Shelving.shelf (shelving_synchronize hs W ha)
  have hgone : ∀ {h}, h ∈ ((s.expiry.due s.now).foldl Shelving.remove (s.shelving a)).shelf.facts ↔
      h ∈ s.matching.members a ∧ h ∉ s.expiry.due s.now := fun {h} => by
    rw [Shelving.shelf_removeAll]
    exact Shelf.mem_takeAll
  show h ∈ (s.synchronize.shelving a).shelf.facts ↔ _
  rw [hshelf]
  by_cases hu : alpha.Unlimited
  · rw [Shelving.clear, ((hdated ha hu).removeAll _).mem_age, hgone, and_assoc]
    refine and_congr_right fun _ => and_congr_right fun hdue => ?_
    refine forall_congr' fun length => forall_congr' fun entry => imp_congr_right fun _ => ?_
    rw [Shelving.stored?_removeAll]
    exact imp_congr_left (and_iff_left hdue)
  · obtain ⟨capacity, hwindow⟩ := Classical.not_forall.1 hu
    have hwindow := Classical.not_not.1 hwindow
    rw [Shelving.clear_of_length hwindow, hgone]
    refine and_congr_right fun _ => (and_iff_left fun {length entry} htime => ?_).symm
    rw [hwindow] at htime
    cases htime

/-- A synchronisation lets go what queries pass over, and nothing else. -/
theorem Punctual.clears (hpunctual : s.Punctual) (hs : s.Steady) (W : s.network.WellFormed)
    (hdated : s.Dated) : s.queryView.Clears s.synchronize.queryView := by
  have ho := hs.synchronize W
  have hnow : s.synchronize.now = s.now := s.now_synchronize
  have hstore : ∀ {h}, s.expiry.isExpired h s.now = false →
      s.synchronize.store.entry? h = s.store.entry? h := fun {h} hundue => by
    have hleft := hpunctual.not_mem_due.2 hundue
    rw [entry?_synchronize hs W 0]
    refine Option.ext fun entry => ?_
    rw [Shelving.stored?_removeAll]
    exact and_iff_left hleft
  have hmembers : ∀ {a h}, h ∈ s.synchronize.matching.members a ↔
      h ∈ s.matching.members a ∧ s.queryView.isCurrent a h = true := fun {a h} => by
    cases ha : s.network.alpha? a with
    | none =>
      refine iff_of_false (fun hm => ?_) fun hm => ?_
      · obtain ⟨alpha, -, halpha, -⟩ := ho.steady.kept.stocked.typed hm
        rw [ho.network, ha] at halpha
        cases halpha
      · obtain ⟨alpha, -, halpha, -⟩ := hs.kept.stocked.typed hm.1
        rw [ha] at halpha
        cases halpha
    | some alpha =>
      rw [hs.mem_synchronize W hdated ha]
      refine and_congr_right fun hm => ?_
      obtain ⟨-, entry, -, he, -⟩ := hs.kept.stocked.typed hm
      rw [@QueryView.isCurrent_iff s.queryView h a alpha entry ha he, hpunctual.not_mem_due]
      refine and_congr_right fun _ => ⟨fun hall {length} hwindow => hall hwindow he, ?_⟩
      intro hall length entry' hwindow he'
      obtain rfl := Option.some.inj (he.symm.trans he')
      exact hall hwindow
  refine ⟨ho.network, hmembers, fun {a h} hm => ?_, hstore, hs.kept.stocked, ho.steady.kept.stocked⟩
  obtain ⟨hold, hcurrent⟩ := hmembers.1 hm
  obtain ⟨alpha, entry, ha, he, -⟩ := hs.kept.stocked.typed hold
  obtain ⟨hundue, hcovers⟩ := (@QueryView.isCurrent_iff s.queryView h a alpha entry ha he).1 hcurrent
  have hkept : s.synchronize.store.entry? h = some entry := (hstore hundue).trans he
  have hindex : s.synchronize.network.alpha? a = some alpha := by
    rw [ho.network]
    exact ha
  refine (@QueryView.isCurrent_iff s.synchronize.queryView h a alpha entry hindex hkept).2
    ⟨?_, fun {length} hwindow => ?_⟩
  · rw [← Bool.not_eq_true]
    intro hexpired
    obtain ⟨d, hd, hle⟩ := (hpunctual.synchronize.1.isExpired).1 hexpired
    exact absurd (hpunctual.synchronize.2 hd) (Int.not_lt.2 hle)
  · show length.covers entry.moment s.synchronize.now = true
    rw [hnow]
    exact hcovers hwindow

/-- Whatever the clock shows, a query answers as it does after what is overdue then has gone: all
    its rows are the same ones in the same order, or it is refused in the same way. -/
theorem query_of_reached {declarations : Declarations} (hb : declarations.build = .ok base)
    (hs : Reached base settings s) (clock : Clock) (name : String) (params : List Value) :
    ({ s with clock } : Session).synchronize.query name params =
      ({ s with clock } : Session).query name params := by
  have W := Declarations.wellFormed_build hb
  obtain ⟨hsteady, hbase, -⟩ := hs.steady W
  have W' : s.network.WellFormed := by
    rw [network, hbase]
    exact W
  have hread : s.Onward { s with clock } := hsteady.same rfl rfl rfl rfl rfl
  have hpunctual : Punctual { s with clock } := (hs.punctual W).same rfl rfl rfl
  have hdated : Dated { s with clock } := hs.dated W
  have C := hpunctual.clears hread.steady W' hdated
  have hsync : ({ s with clock } : Session).synchronize.base = base :=
    (hread.steady.synchronize W').base.trans hbase
  have hplan : ({ s with clock } : Session).synchronize.plan name params =
      ({ s with clock } : Session).plan name params := by
    unfold Session.plan
    rw [hsync, ← hbase]
  unfold Session.query
  rw [hplan]
  cases hp : ({ s with clock } : Session).plan name params with
  | error e => rfl
  | ok plan =>
    refine congrArg Except.ok (C.allRows_eq ?_ params)
    show s.base.network.IndexesAll plan
    rw [hbase]
    unfold Session.plan at hp
    split at hp
    · cases hp
    · next found hfound =>
      split at hp
      · cases hp
        exact Declarations.indexes_build hb (hbase ▸ hfound)
      · cases hp

/-- Gusts are asked for as long as no storm is known. -/
def gusts : Declarations where
  types := [⟨"gust", [("force", .integer)], .event, none, some (.ofMillis 100)⟩]
  rules := []
  queries := [⟨"calm", [], .all [.pattern ⟨"gust", some "g", [], [], some (.time (.ofMillis 80))⟩,
    .absent (.pattern ⟨"gust", none, [.compare "force" .greater (.literal (.integer 5))], [], none⟩)]⟩]

/-- A storm, and a weak gust half as long ago as it lasts. -/
def gustsRun (base : RuleBase) : Session :=
  (({ ((start base Settings.standard 0).change (.insert ⟨"gust", [("force", .integer 9)]⟩)) with
      clock := .realtime 50 } : Session).change (.insert ⟨"gust", [("force", .integer 3)]⟩))

/-- The storm is still stored when it is overdue, and no longer in the way of the weak gust. -/
theorem query_of_reached_gustsRun : ∃ base, gusts.build = .ok base ∧
    Reached base Settings.standard (gustsRun base) ∧
    (gustsRun base).query "calm" [] = .ok [] ∧ (gustsRun base).store.contains 1 = true ∧
    ({ gustsRun base with clock := .realtime 110 } : Session).query "calm" [] =
      .ok [⟨[("g", 2)], []⟩] ∧
    ({ gustsRun base with clock := .realtime 110 } : Session).synchronize.query "calm" [] =
      .ok [⟨[("g", 2)], []⟩] := by
  obtain ⟨base, hb, hrun⟩ := Declarations.build_of_passes gusts (fun base =>
    decide ((gustsRun base).query "calm" [] = .ok []) && (gustsRun base).store.contains 1 &&
      decide (({ gustsRun base with clock := .realtime 110 } : Session).query "calm" [] =
        .ok [⟨[("g", 2)], []⟩])) (by decide +kernel)
  simp only [Bool.and_eq_true, decide_eq_true_eq] at hrun
  obtain ⟨⟨hbefore, hstored⟩, hafter⟩ := hrun
  have hreal : ∀ c, ((start base Settings.standard 0).change c).clock.isManual = false := fun c =>
    (isManual_change _ c).trans (congrArg Clock.isManual (clock_applyEvents _))
  have hs : Reached base Settings.standard (gustsRun base) :=
    (((Reached.start 0).change _).step (.read _ 50 (hreal _))).change _
  exact ⟨base, hb, hs, hbefore, hstored, hafter,
    (query_of_reached hb hs (.realtime 110) "calm" []).trans hafter⟩

end Session

end RuleNet
