/-
  Firing cycles while the clock runs.

  A cycle is a row of rounds. In each one the session looks at its clock, and what is overdue goes; then
  the first activation of the group in focus is taken, and its action runs, which may look at the clock
  as well. The cycle ends where it is halted, where its limit is reached, where nothing waits, or where an
  action fails.

  * `Round`, `Clocked.Rounds`: one round, and a row of them.
  * `Clocked.Ending`: why a row of rounds ends, and what the cycle answers then.
  * `Clocked.ending_cycle`: a cycle is a row of rounds that ends, and `Clocked.cycle_of_lt` says how many
    steps it needs.
  * `Clocked.fireWithin_limited`: a cycle with a limit ends, whatever the clock shows.
-/
import RuleNet.Proofs.Session.Acting
import RuleNet.Proofs.Session.Pending

namespace RuleNet

/-- What has an answer has ended. -/
theorem FireOutcome.ne_unfinished {outcome : FireOutcome} {answer : Except EngineError Nat}
    (h : outcome.answer? = some answer) (count : Nat) : outcome ≠ .unfinished count := by
  rintro rfl
  cases h

/-- What has ended has an answer. -/
theorem FireOutcome.answer?_of_ne {outcome : FireOutcome} (h : ∀ count, outcome ≠ .unfinished count) :
    ∃ answer, outcome.answer? = some answer := by
  cases outcome with
  | finished count => exact ⟨_, rfl⟩
  | failed e => exact ⟨_, rfl⟩
  | unfinished count => exact absurd rfl (h count)

/-! ## Rounds -/

/-- One round of a cycle: an activation is taken off the agenda of a session, and the clock has readings
    to show from then on. -/
structure Round where
  ready : Session
  activation : Activation
  rest : Agenda
  readings : List Moment

namespace Round

/-- The session in which the action starts. -/
def begun (round : Round) : Clocked :=
  ⟨{ ({ round.ready with agenda := round.rest } : Session).tell (.firing round.activation) with
    firing := some round.activation.rule }, round.readings⟩

def action (round : Round) : Action := round.ready.actionOf round.activation

/-- What the action ends with. -/
def answer (round : Round) : Except ActionError Unit := (Clocked.perform round.action round.begun).1

/-- Whether the action asks to halt the cycle. -/
def halts (round : Round) : Bool := Clocked.halts round.action round.begun

/-- The session after the round. -/
def after (round : Round) : Clocked :=
  (Clocked.fire ⟨{ round.ready with agenda := round.rest }, round.readings⟩ round.activation).2

/-- The round fails as its action does. -/
theorem fire_eq (round : Round) :
    Clocked.fire ⟨{ round.ready with agenda := round.rest }, round.readings⟩ round.activation =
      (round.answer.mapError (.action (round.after.session.ruleName round.activation.rule)),
        round.after) := by
  unfold answer after Clocked.fire
  dsimp only
  split
  · next heq =>
    have hanswer : (Clocked.perform round.action round.begun).1 = .ok () := heq
    rw [hanswer]
    rfl
  · next error heq =>
    have hanswer : (Clocked.perform round.action round.begun).1 = .error error := heq
    rw [hanswer]
    rfl

/-- After a round the rules are the same, and the marks are what they were but for a halt. -/
theorem performed_after (round : Round) : round.after.session.base = round.ready.base ∧
    round.after.session.firing = round.ready.firing ∧
    round.after.session.halted = (round.ready.halted || round.halts) ∧
    round.rest.Later round.after.session.agenda := by
  obtain ⟨hbase, -, hhalted, hagenda⟩ := Clocked.performed round.action round.begun
  unfold after Clocked.fire
  dsimp only
  split <;> exact ⟨hbase, rfl, hhalted, hagenda⟩

/-- A round leads on from where requests have led. -/
theorem reached_after (round : Round) {base : RuleBase} {settings : Settings}
    (h : Session.Reached base settings round.ready)
    (hp : round.ready.agenda.popNext = some (round.activation, round.rest)) :
    Session.Reached base settings round.after.session :=
  h.fireClocked hp round.readings

end Round

namespace Clocked

variable {c c' last : Clocked} {limit : Option Nat} {fired : Nat} {rounds : List Round}

theorem onto_synchronize (c : Clocked) : c.session.Onto c.synchronize.session :=
  (Session.onto_look c).trans (Session.onto_synchronize _)

/-- The round in which an activation is taken. -/
def round (c : Clocked) (a : Activation) (agenda : Agenda) : Round :=
  ⟨c.synchronize.session, a, agenda, c.synchronize.readings⟩

/-- A row of rounds, with `fired` of them before: while neither a halt nor the limit forbids it, the
    session looks at its clock, what is overdue goes, and the activation that is first then is taken. -/
inductive Rounds (limit : Option Nat) : Nat → Clocked → List Round → Clocked → Prop
  | nil (fired : Nat) (c : Clocked) : Rounds limit fired c [] c
  | cons {fired : Nat} {c last : Clocked} {a : Activation} {agenda : Agenda} {rounds : List Round}
    (hgo : (c.session.halted || limit.any (· ≤ fired)) = false)
    (hp : c.synchronize.session.agenda.popNext = some (a, agenda))
    (h : Rounds limit (fired + 1) (c.round a agenda).after rounds last) :
    Rounds limit fired c (c.round a agenda :: rounds) last

/-- Why a row of rounds ends in a session, how the cycle ends then, and the session it leaves. -/
inductive Ending (limit : Option Nat) (fired : Nat) (rounds : List Round) (last : Clocked) :
    FireOutcome → Clocked → Prop
  | stopped (hok : ∀ round ∈ rounds, round.answer = .ok ())
    (hstop : (last.session.halted || limit.any (· ≤ fired + rounds.length)) = true) :
    Ending limit fired rounds last (.finished (fired + rounds.length)) last
  | idle (hok : ∀ round ∈ rounds, round.answer = .ok ())
    (hp : last.synchronize.session.agenda.popNext = none) :
    Ending limit fired rounds last (.finished (fired + rounds.length)) last.synchronize
  | failed {before : List Round} {round : Round} {error : ActionError}
    (hrounds : rounds = before ++ [round]) (hok : ∀ earlier ∈ before, earlier.answer = .ok ())
    (herror : round.answer = .error error) :
    Ending limit fired rounds last
      (.failed (.action (round.after.session.ruleName round.activation.rule) error)) last
  | unfinished (hok : ∀ round ∈ rounds, round.answer = .ok ()) :
    Ending limit fired rounds last (.unfinished (fired + rounds.length)) last

/-- One more round at the front. -/
theorem Ending.cons {outcome : FireOutcome} {round : Round}
    (h : Ending limit (fired + 1) rounds last outcome c') (hround : round.answer = .ok ()) :
    Ending limit fired (round :: rounds) last outcome c' := by
  have hlength : fired + 1 + rounds.length = fired + (round :: rounds).length := by
    rw [List.length_cons]
    omega
  have hall : ∀ {rounds}, (∀ round ∈ rounds, Round.answer round = .ok ()) →
      ∀ earlier ∈ round :: rounds, earlier.answer = .ok () := fun hok =>
    List.forall_mem_cons.2 ⟨hround, hok⟩
  cases h with
  | stopped hok hstop =>
    rw [hlength] at hstop ⊢
    exact .stopped (hall hok) hstop
  | idle hok hp =>
    rw [hlength]
    exact .idle (hall hok) hp
  | failed hrounds hok herror =>
    rw [hrounds]
    exact .failed (List.cons_append ..).symm (hall hok) herror
  | unfinished hok =>
    rw [hlength]
    exact .unfinished (hall hok)

/-- A cycle is a row of rounds that ends. -/
theorem ending_cycle (limit : Option Nat) (steps fired : Nat) (c : Clocked) :
    ∃ rounds last, Rounds limit fired c rounds last ∧
      Ending limit fired rounds last (cycle limit steps fired c).1 (cycle limit steps fired c).2 := by
  induction steps generalizing fired c with
  | zero => exact ⟨[], c, .nil fired c, .unfinished (by simp)⟩
  | succ steps ih =>
    unfold cycle
    split
    · next hstop => exact ⟨[], c, .nil fired c, .stopped (by simp) hstop⟩
    · next hgo =>
      have hgo := Bool.eq_false_iff.2 hgo
      dsimp only
      split
      · next hp => exact ⟨[], c, .nil fired c, .idle (by simp) hp⟩
      · next a agenda hp =>
        have hfire := (c.round a agenda).fire_eq
        split
        · next after heq =>
          obtain ⟨hanswer, hafter⟩ := Prod.mk.inj (hfire.symm.trans heq)
          obtain ⟨rounds, last, hrounds, hending⟩ := ih (fired + 1) after
          refine ⟨_ :: rounds, last, .cons hgo hp (hafter ▸ hrounds), hending.cons ?_⟩
          cases h : (c.round a agenda).answer with
          | ok => rfl
          | error error =>
            rw [h] at hanswer
            cases hanswer
        · next e after heq =>
          obtain ⟨hanswer, hafter⟩ := Prod.mk.inj (hfire.symm.trans heq)
          cases h : (c.round a agenda).answer with
          | ok =>
            rw [h] at hanswer
            cases hanswer
          | error error =>
            rw [h] at hanswer
            cases hanswer
            refine ⟨[c.round a agenda], after, .cons hgo hp (hafter ▸ .nil _ _), ?_⟩
            exact @Ending.failed limit fired _ after [] _ error rfl (by simp) h

/-- A cycle that has ended does not need more steps. -/
theorem cycle_of_le {outcome : FireOutcome} {steps more : Nat}
    (h : cycle limit steps fired c = (outcome, c')) (hends : ∀ count, outcome ≠ .unfinished count)
    (hle : steps ≤ more) : cycle limit more fired c = (outcome, c') := by
  induction steps generalizing c fired more with
  | zero =>
    cases h
    exact absurd rfl (hends fired)
  | succ steps ih =>
    obtain ⟨more, rfl⟩ : ∃ rest, more = rest + 1 := Nat.exists_eq_succ_of_ne_zero (by omega)
    unfold cycle at h ⊢
    split
    · next hstop => rwa [if_pos hstop] at h
    · next hgo =>
      rw [if_neg hgo] at h
      dsimp only at h ⊢
      split
      · next hp => simpa only [hp] using h
      · next a agenda hp =>
        simp only [hp] at h
        split
        · next heq =>
          simp only [heq] at h
          exact ih h (by omega)
        · next heq => simpa only [heq] using h

/-- A cycle that has not ended has used up its steps. -/
theorem steps_of_unfinished {steps count : Nat}
    (h : (cycle limit steps fired c).1 = .unfinished count) : count = fired + steps := by
  induction steps generalizing c fired with
  | zero => exact (FireOutcome.unfinished.inj h).symm
  | succ steps ih =>
    unfold cycle at h
    split at h
    · cases h
    · dsimp only at h
      split at h
      · cases h
      · split at h
        · have hcount := ih h
          omega
        · cases h

/-- A cycle that looks for what is first in a list. This computes by structural recursion. -/
def cycleListed (limit : Option Nat) : Nat → Nat → Clocked → FireOutcome × Clocked
  | 0, fired, c => (.unfinished fired, c)
  | steps + 1, fired, c =>
    if c.session.halted || limit.any (· ≤ fired) then (.finished fired, c)
    else match c.synchronize.session.agenda.popListed with
      | none => (.finished fired, c.synchronize)
      | some (activation, agenda) =>
        match fire ⟨{ c.synchronize.session with agenda }, c.synchronize.readings⟩ activation with
        | (.ok (), c) => cycleListed limit steps (fired + 1) c
        | (.error e, c) => (.failed e, c)

theorem cycle_eq_cycleListed (limit : Option Nat) (steps fired : Nat) (c : Clocked) :
    cycle limit steps fired c = cycleListed limit steps fired c := by
  induction steps generalizing fired c with
  | zero => rfl
  | succ steps ih =>
    unfold cycle cycleListed
    refine if_congr Iff.rfl rfl ?_
    dsimp only
    rw [Agenda.popNext_eq_popListed]
    cases c.synchronize.session.agenda.popListed with
    | none => rfl
    | some taken =>
      dsimp only
      cases fire ⟨{ c.synchronize.session with agenda := taken.2 }, c.synchronize.readings⟩ taken.1 with
      | mk answer after =>
        cases answer with
        | ok => exact ih (fired + 1) after
        | error e => rfl

/-- Whether what a cycle leaves passes a test. -/
def firesListed (c : Clocked) (steps : Nat) (limit : Option Nat)
    (p : FireOutcome → Clocked → Bool) : Bool :=
  let (outcome, c) := cycleListed limit steps 0 c.opened
  p outcome ⟨{ c.session with agenda := c.session.agenda.unlock, halted := false }, c.readings⟩

theorem fireWithin_of_firesListed {steps : Nat} {p : FireOutcome → Clocked → Bool}
    (h : c.firesListed steps limit p = true) :
    ∃ outcome c', c.fireWithin steps limit = (outcome, c') ∧ p outcome c' = true := by
  unfold firesListed at h
  rw [← cycle_eq_cycleListed] at h
  exact ⟨_, _, rfl, h⟩

/-! ## What rounds leave alone -/

theorem reached_look {base : RuleBase} {settings : Settings}
    (h : Session.Reached base settings c.session) :
    Session.Reached base settings c.look.session := by
  rcases c.look_cases with hc | ⟨reading, rest, -, hc⟩ <;> rw [hc]
  · exact h
  · exact h.read reading

theorem reached_synchronize {base : RuleBase} {settings : Settings}
    (h : Session.Reached base settings c.session) :
    Session.Reached base settings c.synchronize.session :=
  (reached_look h).step (.synchronize _)

theorem reached_opened {base : RuleBase} {settings : Settings}
    (h : Session.Reached base settings c.session) :
    Session.Reached base settings c.opened.session :=
  (reached_synchronize h).step (.halt _ false)

theorem reached_round {base : RuleBase} {settings : Settings}
    (h : Session.Reached base settings c.session) {a : Activation} {agenda : Agenda}
    (hp : c.synchronize.session.agenda.popNext = some (a, agenda)) :
    Session.Reached base settings (c.round a agenda).after.session :=
  (c.round a agenda).reached_after (reached_synchronize h) hp

namespace Rounds

variable {base : RuleBase} {settings : Settings}

/-- Requests lead to every session of a row, and each round starts from a synchronised one. -/
theorem reached (h : Rounds limit fired c rounds last)
    (hs : Session.Reached base settings c.session) :
    Session.Reached base settings last.session ∧ ∀ round ∈ rounds, ∃ before,
      Session.Reached base settings before ∧ round.ready = before.synchronize := by
  induction h with
  | nil => exact ⟨hs, by simp⟩
  | @cons fired c last a agenda rounds hgo hp _ ih =>
    obtain ⟨hlast, hall⟩ := ih (reached_round hs hp)
    exact ⟨hlast, List.forall_mem_cons.2 ⟨⟨c.look.session, reached_look hs, rfl⟩, hall⟩⟩

/-- Each round takes what is first then. -/
theorem first (h : Rounds limit fired c rounds last) (W : base.network.WellFormed)
    (hs : Session.Reached base settings c.session) : ∀ round ∈ rounds, ∃ a,
      round.ready.agenda.First a ∧ round.activation = { a with state := .fired } := by
  induction h with
  | nil => simp
  | cons hgo hp _ ih =>
    have hready := reached_synchronize hs
    obtain ⟨a, hfirst, ha, -⟩ := (hready.steady W).1.agenda.first_of_popNext hp
    exact List.forall_mem_cons.2 ⟨⟨a, hfirst, ha⟩, ih (reached_round hs hp)⟩

/-- The rule that is marked is the one that was marked before. -/
theorem firing (h : Rounds limit fired c rounds last) : last.session.firing = c.session.firing := by
  induction h with
  | nil => rfl
  | @cons fired c last a agenda rounds _ _ _ ih =>
    obtain ⟨-, hfiring, -, -⟩ := (c.round a agenda).performed_after
    exact ih.trans (hfiring.trans c.onto_synchronize.firing)

/-- What has fired does not wait again, and is counted. -/
theorem past (h : Rounds limit fired c rounds last) (W : base.network.WellFormed)
    (hs : Session.Reached base settings c.session) :
    (∀ {id}, c.session.agenda.Past id → last.session.agenda.Past id) ∧
      (∀ round ∈ rounds, last.session.agenda.Past round.activation.id) ∧
      last.session.agenda.counts.fired = c.session.agenda.counts.fired + rounds.length := by
  induction h with
  | nil => exact ⟨id, by simp, rfl⟩
  | @cons fired c last a agenda rounds hgo hp _ ih =>
    have hready := reached_synchronize hs
    have hsync := c.onto_synchronize
    obtain ⟨hgone, hkeep, hcount⟩ := (hready.steady W).1.agenda.past_of_popNext hp
    obtain ⟨-, -, -, hlater⟩ := (c.round a agenda).performed_after
    obtain ⟨ihpast, ihgone, ihcount⟩ := ih (reached_round hs hp)
    refine ⟨fun hpast => ihpast ((hkeep (hpast.later hsync.agenda)).later hlater),
      List.forall_mem_cons.2 ⟨ihpast (hgone.later hlater), ihgone⟩, ?_⟩
    have hready : (c.round a agenda).ready.agenda.counts.fired = c.session.agenda.counts.fired :=
      hsync.agenda.fired
    rw [ihcount, hlater.fired, List.length_cons]
    show agenda.counts.fired + _ = _
    rw [hcount]
    show (c.round a agenda).ready.agenda.counts.fired + 1 + _ = _
    rw [hready]
    omega

/-- The cycle is to halt only where the last action has asked for it. -/
theorem halted (h : Rounds limit fired c rounds last) (hs : c.session.halted = false) :
    (last.session.halted = true → ∃ round, rounds.getLast? = some round ∧ round.halts = true) ∧
    ∀ round ∈ rounds.dropLast, round.halts = false := by
  induction h with
  | nil => simp [hs]
  | @cons fired c last a agenda rounds hgo hp h ih =>
    obtain ⟨-, -, hhalted, -⟩ := (c.round a agenda).performed_after
    have hready : (c.round a agenda).ready.halted = false := c.onto_synchronize.halted.trans hs
    rw [hready, Bool.false_or] at hhalted
    cases h with
    | nil => exact ⟨fun hlast => ⟨_, rfl, hhalted ▸ hlast⟩, by simp⟩
    | cons hgo' hp' h' =>
      have hquiet := (Bool.or_eq_false_iff.1 hgo').1
      obtain ⟨ihlast, ihall⟩ := ih hquiet
      rw [List.getLast?_cons_cons, List.dropLast_cons_cons]
      exact ⟨ihlast, List.forall_mem_cons.2 ⟨hhalted ▸ hquiet, ihall⟩⟩

/-- There are no more rounds than the limit allows. -/
theorem limited (h : Rounds limit fired c rounds last) {most : Nat} (hlimit : limit = some most)
    (hle : fired ≤ most) : fired + rounds.length ≤ most := by
  induction h with
  | nil => exact hle
  | cons hgo _ _ ih =>
    have hlt := (Bool.or_eq_false_iff.1 hgo).2
    simp only [hlimit, Option.any_some, decide_eq_false_iff_not, Nat.not_le] at hlt
    have := ih hlt
    rw [List.length_cons]
    omega

/-- A count is that of rounds that have all succeeded, and there was a reason to end. -/
theorem counted (h : Rounds limit 0 c rounds last) (hs : c.session.halted = false)
    {outcome : FireOutcome} (hending : Ending limit 0 rounds last outcome c') {count : Nat}
    (hanswer : outcome.answer? = some (.ok count)) : rounds.length = count ∧
      (∀ round ∈ rounds, round.answer = .ok ()) ∧
      (limit = some count ∨ (∃ round, rounds.getLast? = some round ∧ round.halts = true) ∨
        c'.session.agenda.popNext = none) := by
  cases hending with
  | failed => cases hanswer
  | unfinished => cases hanswer
  | stopped hok hstop =>
    cases hanswer
    refine ⟨(Nat.zero_add _).symm, hok, ?_⟩
    rcases Bool.or_eq_true_iff.1 hstop with hhalted | hlimit
    · exact .inr (.inl ((h.halted hs).1 hhalted))
    · left
      obtain ⟨most, rfl, hle⟩ := (Option.any_eq_true _ _).1 hlimit
      have hmost := h.limited rfl (Nat.zero_le most)
      rw [Nat.le_antisymm hmost (of_decide_eq_true hle)]
  | idle hok hp =>
    cases hanswer
    exact ⟨(Nat.zero_add _).symm, hok, .inr (.inr hp)⟩

/-- A row of rounds that is no shorter goes the same way, and then on. -/
theorem extends_of_le {rounds' : List Round} {last' : Clocked}
    (h : Rounds limit fired c rounds last) (h' : Rounds limit fired c rounds' last')
    (hle : rounds.length ≤ rounds'.length) : ∃ more, rounds' = rounds ++ more ∧
      Rounds limit (fired + rounds.length) last more last' := by
  induction h generalizing rounds' with
  | nil => exact ⟨rounds', rfl, h'⟩
  | @cons fired c last a agenda rounds hgo hp h ih =>
    cases h' with
    | nil => exact absurd hle (Nat.not_succ_le_zero _)
    | cons hgo' hp' h' =>
      cases hp.symm.trans hp'
      obtain ⟨more, rfl, hmore⟩ := ih h' (Nat.le_of_succ_le_succ hle)
      have hlength : fired + 1 + rounds.length = fired + (c.round a agenda :: rounds).length := by
        rw [List.length_cons]
        omega
      exact ⟨more, rfl, hlength ▸ hmore⟩

end Rounds

/-- A cycle ends where its last round has led, or right after what was overdue has gone. -/
theorem Ending.left {outcome : FireOutcome} (h : Ending limit fired rounds last outcome c') :
    c' = last ∨ c' = last.synchronize := by
  cases h with
  | idle => exact .inr rfl
  | stopped => exact .inl rfl
  | failed => exact .inl rfl
  | unfinished => exact .inl rfl

theorem Ending.onto {outcome : FireOutcome} (h : Ending limit fired rounds last outcome c') :
    last.session.Onto c'.session := by
  rcases h.left with rfl | rfl
  · exact .refl _
  · exact last.onto_synchronize

theorem Ending.reached {base : RuleBase} {settings : Settings} {outcome : FireOutcome}
    (h : Ending limit fired rounds last outcome c')
    (hlast : Session.Reached base settings last.session) :
    Session.Reached base settings c'.session := by
  rcases h.left with rfl | rfl
  · exact hlast
  · exact reached_synchronize hlast

/-- An error is that of the last action, and the ones before have succeeded. -/
theorem Ending.error {outcome : FireOutcome} (h : Ending limit 0 rounds last outcome c')
    {e : EngineError} (hanswer : outcome.answer? = some (.error e)) : ∃ before round error,
      rounds = before ++ [round] ∧ (∀ earlier ∈ before, earlier.answer = .ok ()) ∧
      round.answer = .error error ∧
      e = .action (round.after.session.ruleName round.activation.rule) error := by
  cases h with
  | stopped => cases hanswer
  | unfinished => cases hanswer
  | idle => cases hanswer
  | failed hrow hok herror =>
    cases hanswer
    exact ⟨_, _, _, hrow, hok, herror, rfl⟩

/-- Where a row has ended with an answer, all of its rounds have succeeded but one with an error, and no
    round can follow. -/
theorem Ending.final {outcome : FireOutcome} (h : Ending limit fired rounds last outcome c')
    (hends : ∀ count, outcome ≠ .unfinished count) {more : List Round} {last' : Clocked}
    (hmore : Rounds limit (fired + rounds.length) last more last')
    (hok : ∀ round ∈ rounds ++ more, round.answer = .ok ()) : more = [] := by
  cases hmore with
  | nil => rfl
  | cons hgo hp _ =>
    cases h with
    | stopped _ hstop => exact absurd hstop (Bool.eq_false_iff.1 hgo)
    | idle _ hp' => cases hp'.symm.trans hp
    | failed hrounds _ herror => cases (hok _ (by simp [hrounds])).symm.trans herror
    | unfinished => exact absurd rfl (hends _)

/-- A cycle that has ended needs no more than one step for each round and one to end. -/
theorem cycle_of_lt {outcome : FireOutcome} {steps more : Nat}
    (hcycle : cycle limit steps fired c = (outcome, c')) (h : Rounds limit fired c rounds last)
    (hending : Ending limit fired rounds last outcome c')
    (hends : ∀ count, outcome ≠ .unfinished count) (hlt : rounds.length < more) :
    cycle limit more fired c = (outcome, c') := by
  by_cases hended : ∀ count, (cycle limit more fired c).1 ≠ .unfinished count
  · have hmore : cycle limit (max steps more) fired c = cycle limit more fired c :=
      cycle_of_le rfl hended (Nat.le_max_right ..)
    exact hmore.symm.trans (cycle_of_le hcycle hends (Nat.le_max_left ..))
  · -- it would have gone on after the last round
    obtain ⟨count, hcount⟩ := Classical.not_forall.1 hended
    have hcount := Decidable.of_not_not hcount
    have hsteps := steps_of_unfinished hcount
    obtain ⟨rounds', last', hrounds', hending'⟩ := ending_cycle limit more fired c
    rw [hcount] at hending'
    cases hending' with
    | unfinished hok =>
      obtain ⟨rest, rfl, hrest⟩ := h.extends_of_le hrounds' (by omega)
      rw [hending.final hends hrest hok, List.append_nil] at hsteps
      omega

/-! ## Cycles -/

/-- The session that a firing cycle leaves: no group is locked, and no halt is asked for. -/
def closed (c : Clocked) : Clocked :=
  ⟨{ c.session with agenda := c.session.agenda.unlock, halted := false }, c.readings⟩

theorem fireWithin_of_cycle {steps : Nat} {outcome : FireOutcome}
    (h : cycle limit steps 0 c.opened = (outcome, c')) :
    c.fireWithin steps limit = (outcome, c'.closed) := by
  unfold fireWithin
  rw [h]
  rfl

/-- What a firing cycle leaves has been closed. -/
theorem cycle_of_fireWithin {steps : Nat} {outcome : FireOutcome}
    (h : c.fireWithin steps limit = (outcome, c')) :
    ∃ d, cycle limit steps 0 c.opened = (outcome, d) ∧ c' = d.closed := by
  obtain ⟨⟨outcome', d⟩, hcycle⟩ : ∃ r, cycle limit steps 0 c.opened = r := ⟨_, rfl⟩
  obtain ⟨rfl, rfl⟩ := Prod.mk.inj ((fireWithin_of_cycle hcycle).symm.trans h)
  exact ⟨d, hcycle, rfl⟩

/-- A firing cycle is a row of rounds that ends. -/
theorem ending_fireWithin {steps : Nat} {outcome : FireOutcome}
    (h : c.fireWithin steps limit = (outcome, c')) : ∃ rounds last d,
      Rounds limit 0 c.opened rounds last ∧ Ending limit 0 rounds last outcome d ∧ c' = d.closed ∧
      ((∀ count, outcome ≠ .unfinished count) →
        ∀ more, rounds.length < more → c.fireWithin more limit = (outcome, c')) := by
  obtain ⟨d, hcycle, rfl⟩ := cycle_of_fireWithin h
  obtain ⟨rounds, last, hrounds, hending⟩ := ending_cycle limit steps 0 c.opened
  rw [hcycle] at hending
  exact ⟨rounds, last, d, hrounds, hending, rfl, fun hends more hlt =>
    fireWithin_of_cycle (cycle_of_lt hcycle hrounds hending hends hlt)⟩

/-- A firing cycle that has ended does not need more steps. -/
theorem fireWithin_of_le {steps more : Nat} {outcome : FireOutcome}
    (h : c.fireWithin steps limit = (outcome, c')) (hends : ∀ count, outcome ≠ .unfinished count)
    (hle : steps ≤ more) : c.fireWithin more limit = (outcome, c') := by
  obtain ⟨d, hcycle, rfl⟩ := cycle_of_fireWithin h
  exact fireWithin_of_cycle (cycle_of_le hcycle hends hle)

/-- A firing cycle with a limit ends, whatever the clock shows. -/
theorem fireWithin_limited (c : Clocked) {most steps : Nat} (hlt : most < steps) :
    ∃ answer, (c.fireWithin steps (some most)).1.answer? = some answer := by
  obtain ⟨⟨outcome, c'⟩, hfire⟩ : ∃ r, c.fireWithin steps (some most) = r := ⟨_, rfl⟩
  rw [hfire]
  refine FireOutcome.answer?_of_ne fun count hcount => ?_
  obtain ⟨d, hcycle, -⟩ := cycle_of_fireWithin hfire
  obtain ⟨rounds, last, hrounds, hending⟩ := ending_cycle (some most) steps 0 c.opened
  have hsteps := steps_of_unfinished ((congrArg Prod.fst hcycle).trans hcount)
  rw [hcycle, hcount] at hending
  cases hending with
  | unfinished =>
    have hmost := hrounds.limited rfl (Nat.zero_le most)
    omega

end Clocked

end RuleNet
