/-
  What a firing cycle does.

  * `Session.Returns`: a firing cycle ends by itself.
  * `Session.Rests`: the sessions between two requests.
  * `Session.cycled_of_returns`: what a firing cycle does and answers.
-/
import RuleNet.Proofs.Session.Rounds

namespace RuleNet

namespace Session

variable {s t : Session} {limit : Option Nat} {readings : List Moment}
  {answer : Except EngineError Nat}

/-- A firing cycle ends by itself, with an answer, while a realtime clock shows these readings. -/
def Returns (s : Session) (readings : List Moment) (limit : Option Nat)
    (answer : Except EngineError Nat) (t : Session) : Prop :=
  ∃ steps outcome rest, Clocked.fireWithin ⟨s, readings⟩ steps limit = (outcome, ⟨t, rest⟩) ∧
    outcome.answer? = some answer

/-- A cycle that has ended is a row of rounds that ends. -/
theorem Returns.ending (h : s.Returns readings limit answer t) :
    ∃ rounds last d outcome rest, Clocked.Rounds limit 0 (Clocked.opened ⟨s, readings⟩) rounds last ∧
      Clocked.Ending limit 0 rounds last outcome d ∧ outcome.answer? = some answer ∧
      ⟨t, rest⟩ = d.closed ∧ ∀ more, rounds.length < more →
        Clocked.fireWithin ⟨s, readings⟩ more limit = (outcome, ⟨t, rest⟩) := by
  obtain ⟨steps, outcome, rest, hfire, hanswer⟩ := h
  obtain ⟨rounds, last, d, hrounds, hending, ht, hmore⟩ := Clocked.ending_fireWithin hfire
  exact ⟨rounds, last, d, outcome, rest, hrounds, hending, hanswer, ht,
    hmore (FireOutcome.ne_unfinished hanswer)⟩

/-- The sessions between two requests, where no action is running. -/
inductive Rests (base : RuleBase) (settings : Settings) : Session → Prop
  | start (reading : Moment) : Rests base settings (start base settings reading)
  | change {s : Session} (h : Rests base settings s) (c : Change) : Rests base settings (s.change c)
  | fire {s t : Session} {readings : List Moment} {limit : Option Nat}
    {answer : Except EngineError Nat} (h : Rests base settings s)
    (hf : s.Returns readings limit answer t) : Rests base settings t
  | setFocus {s : Session} (h : Rests base settings s) (group : String) :
    Rests base settings (s.setFocus group)
  | popFocus {s : Session} (h : Rests base settings s) : Rests base settings s.popFocus.2
  | clearGroup {s : Session} (h : Rests base settings s) (group : String) :
    Rests base settings (s.clearGroup group).2
  | share {s : Session} (h : Rests base settings s) (globals : Entries Global) :
    Rests base settings { s with globals }
  | read {s : Session} (h : Rests base settings s) (reading : Moment)
    (hr : s.clock.isManual = false) : Rests base settings { s with clock := .realtime reading }

theorem Returns.reached {base : RuleBase} {settings : Settings}
    (h : s.Returns readings limit answer t) (hs : Reached base settings s) :
    Reached base settings t := by
  obtain ⟨rounds, last, d, outcome, rest, hrounds, hending, -, ht, -⟩ := h.ending
  obtain ⟨rfl, -⟩ := Clocked.mk.inj ht
  have hlast := (hrounds.reached (Clocked.reached_opened hs)).1
  exact ((hending.reached hlast).step (.unlock _)).step (.halt _ false)

theorem Returns.firing (h : s.Returns readings limit answer t) : t.firing = s.firing := by
  obtain ⟨rounds, last, d, outcome, rest, hrounds, hending, -, ht, -⟩ := h.ending
  obtain ⟨rfl, -⟩ := Clocked.mk.inj ht
  exact hending.onto.firing.trans (hrounds.firing.trans (Clocked.onto_synchronize ⟨s, readings⟩).firing)

namespace Rests

variable {base : RuleBase} {settings : Settings}

theorem reached (h : Rests base settings s) : Reached base settings s := by
  induction h with
  | start reading => exact .start reading
  | change _ c ih => exact ih.change c
  | fire _ hf ih => exact hf.reached ih
  | setFocus _ group ih => exact ih.step (.setFocus _ group)
  | popFocus _ ih => exact ih.step (.popFocus _)
  | clearGroup _ group ih => exact ih.step (.clearGroup _ group)
  | share _ globals ih => exact ih.step (.share _ globals)
  | read _ reading hr ih => exact ih.step (.read _ reading hr)

/-- Between two requests no rule is marked as firing. -/
theorem firing (h : Rests base settings s) : s.firing = none := by
  induction h with
  | start reading => exact (onto_applyEvents _).firing
  | change _ c ih => exact (onto_change _ c).firing.trans ih
  | fire _ hf ih => exact hf.firing.trans ih
  | setFocus _ group ih => exact ih
  | popFocus _ ih => exact ih
  | clearGroup _ group ih => exact (onto_clearGroup _ group).firing.trans ih
  | share _ globals ih => exact ih
  | read _ reading hr ih => exact ih

end Rests

/-- What a firing cycle does from a session that rests. -/
structure Cycled (limit : Option Nat) (s : Session) (readings : List Moment) (rounds : List Round)
    (answer : Except EngineError Nat) (t : Session) : Prop where
  /-- It is a row of rounds, after an opening synchronisation. -/
  row : ∃ last, Clocked.Rounds limit 0 (Clocked.opened ⟨s, readings⟩) rounds last ∧
    (t = last.closed.session ∨ t = last.synchronize.closed.session)
  /-- What fires is the first activation of the group in focus, of a session that has just been
      synchronised, and it does not wait afterwards. -/
  first : ∀ round ∈ rounds, (∃ before : Session, round.ready = before.synchronize) ∧
    ∃ a, round.ready.agenda.First a ∧ round.activation = { a with state := .fired } ∧
      t.agenda.get? a.id = none
  /-- A count is that of the rounds, all of which have succeeded, and there was a reason to end. -/
  counted : ∀ count, answer = .ok count → rounds.length = count ∧
    (∀ round ∈ rounds, round.answer = .ok ()) ∧
    (limit = some count ∨ (∃ round, rounds.getLast? = some round ∧ round.halts = true) ∨
      ∀ a ∈ t.agenda.pending, a.group ≠ t.agenda.focus)
  /-- An error is that of the last action, and the ones before have succeeded. -/
  failed : ∀ e, answer = .error e → ∃ before round error, rounds = before ++ [round] ∧
    (∀ earlier ∈ before, earlier.answer = .ok ()) ∧ round.answer = .error error ∧
    e = .action (t.ruleName round.activation.rule) error
  /-- It does not go on when it should have ended. -/
  halted : ∀ round ∈ rounds.dropLast, round.halts = false
  limited : ∀ most, limit = some most → rounds.length ≤ most
  fired : t.agenda.counts.fired = s.agenda.counts.fired + rounds.length
  unlocked : t.agenda.locked = none
  unmarked : t.firing = none
  cleared : t.halted = false

/-- A firing cycle that ends is a row of rounds, in each of which the clock is read anew. Each one takes
    the activation that is first in the group in focus, right after what was overdue has gone. A count is
    answered where all actions have succeeded, and the limit was reached, the last action asked to halt,
    or nothing was left to fire; an error is the one of the last action. In the end nothing is locked or
    marked. -/
theorem cycled_of_returns {declarations : Declarations} {base : RuleBase} {settings : Settings}
    (hb : declarations.build = .ok base) (hs : Rests base settings s)
    (hf : s.Returns readings limit answer t) : ∃ rounds,
      Cycled limit s readings rounds answer t ∧
      (readings = [] → rounds.length < endless → s.fireAll limit = (answer, t)) := by
  have W := Declarations.wellFormed_build hb
  have hstart := Clocked.reached_opened (c := ⟨s, readings⟩) hs.reached
  obtain ⟨rounds, last, d, outcome, rest, hrounds, hending, hanswer, ht, hmore⟩ := hf.ending
  obtain ⟨hsession, -⟩ := Clocked.mk.inj ht
  obtain ⟨hlast, hbefore⟩ := hrounds.reached hstart
  have hd := hending.reached hlast
  obtain ⟨-, hpast, hcount⟩ := hrounds.past W hstart
  refine ⟨rounds, ⟨⟨last, hrounds, ?_⟩, ?_, ?_, ?_, (hrounds.halted rfl).2, ?_, ?_, ?_, ?_, ?_⟩, ?_⟩
  · rcases hending.left with rfl | rfl
    · exact .inl hsession
    · exact .inr hsession
  · intro round hmem
    obtain ⟨before, -, hready⟩ := hbefore round hmem
    obtain ⟨a, hfirst, ha⟩ := hrounds.first W hstart round hmem
    have hgone := ((hpast round hmem).later hending.onto.agenda).1
    rw [ha] at hgone
    exact ⟨⟨before, hready⟩, a, hfirst, ha, hsession ▸ hgone⟩
  · rintro count rfl
    obtain ⟨hlength, hok, hreason⟩ := hrounds.counted rfl hending hanswer
    refine ⟨hlength, hok, hreason.imp_right (Or.imp_right fun hp => ?_)⟩
    rw [hsession]
    exact (hd.steady W).1.agenda.popNext_eq_none.1 hp
  · rintro e rfl
    obtain ⟨before, round, error, hrow, hok, herror, rfl⟩ := hending.error hanswer
    obtain ⟨ready, hready, heq⟩ := hbefore round (by simp [hrow])
    have hbase : t.base = round.after.session.base := by
      rw [hsession]
      show d.session.base = _
      rw [(hd.steady W).2.1, round.performed_after.1, heq,
        ((hready.step (.synchronize ready)).steady W).2.1]
    refine ⟨before, round, error, hrow, hok, herror, ?_⟩
    unfold ruleName
    rw [hbase]
  · intro most hlimit
    have hmost := hrounds.limited hlimit (Nat.zero_le most)
    rwa [Nat.zero_add] at hmost
  · rw [hsession]
    show d.session.agenda.counts.fired = _
    rw [hending.onto.agenda.fired, hcount]
    exact congrArg (· + rounds.length) (Clocked.onto_synchronize ⟨s, readings⟩).agenda.fired
  · exact congrArg (·.agenda.locked) hsession
  · exact hf.firing.trans hs.firing
  · exact congrArg Session.halted hsession
  · rintro rfl hlt
    have hstill := hmore endless hlt
    rw [Clocked.fireWithin_still] at hstill
    obtain ⟨houtcome, hleft⟩ := Prod.mk.inj hstill
    exact fireAll_of_fireWithin (Prod.ext houtcome (Clocked.mk.inj hleft).1) hanswer

/-- A job can be done within 100 milliseconds, and it takes the time until the clock is read again. -/
def jobs : Declarations where
  types := [⟨"job", [("id", .integer)], .event, none, some (.ofMillis 100)⟩]
  rules := [⟨"do", 0, mainGroup, false, false, false, .pattern ⟨"job", none, [], [], none⟩,
    fun _ => .now fun _ => .done⟩]
  queries := []

/-- Two jobs wait. -/
def jobsRun (base : RuleBase) : Session :=
  ((start base Settings.standard 0).change (.insert ⟨"job", [("id", .integer 1)]⟩)).change
    (.insert ⟨"job", [("id", .integer 2)]⟩)

/-- The first job is begun after 20 milliseconds and takes 180 more. It is then too late for the second
    one, which would have been done if the clock had stood still. -/
theorem cycled_of_returns_jobsRun : ∃ base t round, jobs.build = .ok base ∧
    Rests base Settings.standard (jobsRun base) ∧
    (jobsRun base).Returns [10, 20, 200] none (.ok 1) t ∧
    Cycled none (jobsRun base) [10, 20, 200] [round] (.ok 1) t ∧ t.now = 200 ∧ t.store.size = 0 ∧
    ∃ still, (jobsRun base).Returns [] none (.ok 2) still := by
  obtain ⟨base, hb, hrun⟩ := Declarations.build_of_passes jobs (fun base =>
    (Clocked.firesListed ⟨jobsRun base, [10, 20, 200]⟩ 2 none fun outcome c =>
      decide (outcome = .finished 1 ∧ c.session.now = 200 ∧ c.session.store.size = 0)) &&
    (Clocked.firesListed ⟨jobsRun base, []⟩ 3 none fun outcome _ => decide (outcome = .finished 2)))
    (by decide +kernel)
  obtain ⟨hruns, hstands⟩ := Bool.and_eq_true_iff.1 hrun
  obtain ⟨outcome, ⟨t, rest⟩, hfire, hpasses⟩ := Clocked.fireWithin_of_firesListed hruns
  obtain ⟨rfl, hnow, hsize⟩ := of_decide_eq_true hpasses
  obtain ⟨outcome, ⟨still, rest'⟩, hfire', hpasses'⟩ := Clocked.fireWithin_of_firesListed hstands
  obtain rfl := of_decide_eq_true hpasses'
  have hs : Rests base Settings.standard (jobsRun base) := ((Rests.start 0).change _).change _
  have hf : (jobsRun base).Returns [10, 20, 200] none (.ok 1) t := ⟨2, .finished 1, rest, hfire, rfl⟩
  obtain ⟨rounds, hcycled, -⟩ := cycled_of_returns hb hs hf
  obtain ⟨round, rfl⟩ := List.length_eq_one_iff.1 (hcycled.counted 1 rfl).1
  exact ⟨base, t, round, hb, hs, hf, hcycled, hnow, hsize, still, 3, .finished 2, rest', hfire', rfl⟩

end Session

end RuleNet
