/-
  Nothing overdue fires.

  Right before an activation is taken the session is synchronised: no live fact has reached its
  deadline then, and time windows hold what they cover. An activation that waits rests on live facts,
  and those that its joins have matched are members of their memories.

  * `Session.Timed`: the facts of an activation are not overdue, and are inside the time windows under
    which they were matched.
  * `Session.Steady.timed`: so it is for all that waits after a synchronisation.
  * `Session.on_schedule_of_reached`: the schedule is exact, and so it is for all that fires.
-/
import RuleNet.Proofs.Session.Cycle
import RuleNet.Proofs.Session.References
import RuleNet.Proofs.Session.Schedule

namespace RuleNet.Session

variable {s : Session} {base : RuleBase} {settings : Settings}

/-- The facts of an activation are live and have not reached their deadlines, and those that a join
    with a time window has matched are inside the window. -/
structure Timed (s : Session) (a : Activation) : Prop where
  undue : ∀ h ∈ a.binding.handles, (∃ entry, s.store.entry? h = some entry) ∧
    ∀ d, s.deadline? h = some d → s.now < d
  windows : ∀ {terminal k node feed alpha length}, s.network.terminal? a.terminal = some terminal →
    s.network.Over terminal.node k node → node.kind = .join feed →
    s.network.alpha? feed.alpha = some alpha → alpha.window = some (.time length) →
    ∃ h entry, s.matching.handleAt? a.token node.depth = some h ∧ h ∈ a.binding.handles ∧
      s.store.entry? h = some entry ∧ length.covers entry.moment s.now = true

/-- A fact at some depth of a chain is one of its facts. -/
theorem mem_chainHandles {m : Matching} {t : TokenId} {depth : Nat} {h : Handle}
    (hat : m.handleAt? t depth = some h) : h ∈ m.chainHandles t := by
  obtain ⟨token, htoken, hhandle⟩ := Option.bind_eq_some_iff.1 hat
  have hmem := List.mem_of_find?_eq_some (Option.filter_eq_some_iff.1 htoken).1
  exact List.mem_reverse.2 (List.mem_filterMap.2 ⟨token, hmem, hhandle⟩)

/-- Where nothing is overdue and time windows are up to date, this shows in all that waits. -/
theorem Steady.timed (hs : s.Steady) (W : s.network.WellFormed) (hundue : s.Undue)
    (htimely : s.Timely) {a : Activation} (ha : a ∈ s.agenda.pending) : s.Timed a where
  undue h hh := by
    have hlive := (hs.inStep W).handles a ha h hh
    exact ⟨WorkingMemory.contains_iff.1 hlive, fun d hd => hundue hd⟩
  windows {terminal k node feed alpha length} hterminal hover hkind halpha hwindow := by
    obtain ⟨id, hid⟩ := hs.agenda.mem_pending.1 ha
    obtain ⟨terminal', rule, hf, hlive, hbinding⟩ := hs.current hid
    obtain rfl := Option.some.inj (hterminal.symm.trans hf.ends)
    obtain ⟨token, h, hat, -, hhandle, hmember⟩ := hs.joined W hlive hover hkind
    obtain ⟨entry, he, -, hcovers⟩ := htimely.files halpha hwindow h hmember
    have hhandleAt : s.matching.handleAt? a.token node.depth = some h := by
      rw [Matching.handleAt?, hat]
      exact hhandle
    refine ⟨h, entry, hhandleAt, ?_, he, hcovers⟩
    rw [hbinding]
    exact mem_chainHandles hhandleAt

/-- In every session with a manual clock the schedule keeps the deadlines of the live facts and no
    others, and when the clock has been moved none of them has come. Whatever a firing cycle takes
    off the agenda rests on facts that are not overdue, and that are inside the time windows under
    which they were matched. -/
theorem on_schedule_of_reached {declarations : Declarations} (hb : declarations.build = .ok base)
    (hclock : settings.clock = .manual) (hs : Reached base settings s) :
    s.Punctual ∧ (∀ span, (s.advance span).2.Undue) ∧
    ∀ steps limit, ∃ shots last u, Shots limit 0 { s.synchronize with halted := false } shots last ∧
      Ending limit 0 shots last (s.fireWithin steps limit).1 u ∧
      (s.fireWithin steps limit).2 = { u with agenda := u.agenda.unlock, halted := false } ∧
      ∀ shot ∈ shots, shot.ready.Timed shot.activation := by
  have W := Declarations.wellFormed_build hb
  have hpunctual : ∀ {t : Session}, Reached base settings t → t.Punctual := fun ht => ht.punctual W
  have hmanual := (hs.timely_and_manual W hclock).2
  refine ⟨hpunctual hs, fun span => ((hpunctual hs).advance span).2 hmanual, fun steps limit => ?_⟩
  obtain ⟨shots, last, u, hshots, hending, hleft⟩ := s.ending_fireWithin steps limit
  have hstart : Reached base settings { s.synchronize with halted := false } :=
    (hs.step (.synchronize s)).step (.halt _ false)
  refine ⟨shots, last, u, hshots, hending, hleft, fun shot hmem => ?_⟩
  obtain ⟨before, hbefore, heq⟩ := (hshots.reached hstart).2 shot hmem
  obtain ⟨a, hfirst, ha⟩ := hshots.first W hstart shot hmem
  have hready : Reached base settings before.synchronize := hbefore.step (.synchronize before)
  obtain ⟨hsteady, hbase, -⟩ := hready.steady W
  rw [heq] at hfirst ⊢
  have T := hsteady.timed (by rw [network, hbase]; exact W) (hpunctual hbefore).synchronize.2
    (hready.timely W hclock) hfirst.waits
  rw [ha]
  exact ⟨T.undue, T.windows⟩

/-- Readings are watched for a while, and expire a little later. -/
def lapses : Declarations where
  types := [⟨"reading", [("level", .integer)], .event, none, some (.ofMillis 100)⟩]
  rules := [⟨"watch", 0, mainGroup, false, false, false,
    .pattern ⟨"reading", some "r", [], [], some (.time (.ofMillis 80))⟩, fun _ => .done⟩]
  queries := []

/-- Of two readings the first one has expired. -/
def lapseRun (base : RuleBase) : Session :=
  ((((start base { Settings.standard with clock := .manual } 0).change
    (.insert ⟨"reading", [("level", .integer 3)]⟩)).change (.advance (.ofMillis 50))).change
    (.insert ⟨"reading", [("level", .integer 9)]⟩)).change (.advance (.ofMillis 60))

/-- The second reading has its deadline and is the only one for which the rule fires. -/
theorem on_schedule_of_reached_lapseRun : ∃ base, lapses.build = .ok base ∧
    Reached base { Settings.standard with clock := .manual } (lapseRun base) ∧
    (lapseRun base).Punctual ∧ (lapseRun base).deadline? 1 = none ∧
    (lapseRun base).deadline? 2 = some 150 ∧
    ∃ shot last, Shots none 0 { (lapseRun base).synchronize with halted := false } [shot] last ∧
      shot.ready.Timed shot.activation := by
  obtain ⟨base, hb, hrun⟩ := Declarations.build_of_passes lapses (fun base =>
    decide ((lapseRun base).deadline? 1 = none) && decide ((lapseRun base).deadline? 2 = some 150) &&
      (lapseRun base).firesListed 3 none fun outcome _ => decide (outcome = .finished 1))
    (by decide +kernel)
  simp only [Bool.and_eq_true, decide_eq_true_eq] at hrun
  obtain ⟨⟨hgone, hleft⟩, hfires⟩ := hrun
  obtain ⟨outcome, t, hfire, houtcome⟩ := fireWithin_of_firesListed hfires
  have hs : Reached base { Settings.standard with clock := .manual } (lapseRun base) :=
    ((((Reached.start 0).change _).change _).change _).change _
  obtain ⟨hpunctual, -, hcycle⟩ := on_schedule_of_reached hb rfl hs
  obtain ⟨shots, last, u, hshots, hending, -, htimed⟩ := hcycle 3 none
  rw [hfire, of_decide_eq_true houtcome] at hending
  obtain ⟨count, hcount, hlength⟩ : ∃ count, count = 1 ∧ shots.length = count := by
    generalize houtcome : FireOutcome.finished 1 = outcome at hending
    cases hending with
    | stopped => exact ⟨_, (FireOutcome.finished.inj houtcome).symm, (Nat.zero_add _).symm⟩
    | idle => exact ⟨_, (FireOutcome.finished.inj houtcome).symm, (Nat.zero_add _).symm⟩
    | failed => cases houtcome
    | unfinished => cases houtcome
  obtain ⟨shot, rfl⟩ := List.length_eq_one_iff.1 (hlength.trans hcount)
  exact ⟨base, hb, hs, hpunctual, hgone, hleft, shot, last, hshots, htimed shot (by simp)⟩

end RuleNet.Session
