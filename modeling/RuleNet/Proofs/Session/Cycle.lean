/-
  Firing cycles at one reading of the clock.

  A cycle is then a row of firings: of rounds in which no reading is taken.

  * `Shot`, `Session.Shots`: one firing, and a row of them.
  * `Session.Ending`: why a row of firings ends, and what the cycle answers then.
  * `Session.ending_cycle`: a cycle is a row of firings that ends.
  * `Session.Shots.rounds`, `Session.Ending.still`: such a row is one of rounds, and ends as that one.
-/
import RuleNet.Proofs.Session.Rounds

namespace RuleNet

/-! ## Firings -/

/-- One firing of a cycle: an activation is taken off the agenda of a session. -/
structure Shot where
  ready : Session
  activation : Activation
  rest : Agenda

namespace Shot

/-- The session in which the action starts. -/
def begun (shot : Shot) : Session :=
  { ({ shot.ready with agenda := shot.rest } : Session).tell (.firing shot.activation) with
    firing := some shot.activation.rule }

def action (shot : Shot) : Action := shot.ready.actionOf shot.activation

/-- What the action ends with. -/
def answer (shot : Shot) : Except ActionError Unit := (Session.perform shot.action shot.begun).1

/-- Whether the action asks to halt the cycle. -/
def halts (shot : Shot) : Bool := Session.halts shot.action shot.begun

/-- The session after the firing. -/
def after (shot : Shot) : Session :=
  (({ shot.ready with agenda := shot.rest } : Session).fire shot.activation).2

/-- The firing fails as its action does. -/
theorem fire_eq (shot : Shot) :
    ({ shot.ready with agenda := shot.rest } : Session).fire shot.activation =
      (shot.answer.mapError (.action (shot.after.ruleName shot.activation.rule)), shot.after) := by
  unfold answer after Session.fire
  dsimp only
  split
  · next heq =>
    have hanswer : (Session.perform shot.action shot.begun).1 = .ok () := heq
    rw [hanswer]
    rfl
  · next error heq =>
    have hanswer : (Session.perform shot.action shot.begun).1 = .error error := heq
    rw [hanswer]
    rfl

/-- The round in which the clock stands still. -/
def still (shot : Shot) : Round := ⟨shot.ready, shot.activation, shot.rest, []⟩

theorem answer_still (shot : Shot) : shot.still.answer = shot.answer :=
  congrArg Prod.fst (Clocked.perform_still shot.action shot.begun)

theorem halts_still (shot : Shot) : shot.still.halts = shot.halts :=
  Clocked.halts_still shot.action shot.begun

theorem after_still (shot : Shot) : shot.still.after = ⟨shot.after, []⟩ :=
  congrArg Prod.snd (Clocked.fire_still { shot.ready with agenda := shot.rest } shot.activation)

/-- After a firing the rules are the same, and the marks are what they were but for a halt. -/
theorem performed_after (shot : Shot) : shot.after.base = shot.ready.base ∧
    shot.after.firing = shot.ready.firing ∧
    shot.after.halted = (shot.ready.halted || shot.halts) ∧
    shot.rest.Later shot.after.agenda := by
  have h := shot.still.performed_after
  rwa [after_still, halts_still] at h

end Shot

namespace Session

variable {s t : Session} {limit : Option Nat} {fired : Nat} {shots : List Shot}

/-! ## Rows of firings -/

/-- A row of firings, with `fired` of them before: while neither a halt nor the limit forbids it, what
    is overdue goes, and the activation that is first then is taken. -/
inductive Shots (limit : Option Nat) : Nat → Session → List Shot → Session → Prop
  | nil (fired : Nat) (s : Session) : Shots limit fired s [] s
  | cons {fired : Nat} {s t : Session} {a : Activation} {agenda : Agenda} {shots : List Shot}
    (hgo : (s.halted || limit.any (· ≤ fired)) = false)
    (hp : s.synchronize.agenda.popNext = some (a, agenda))
    (h : Shots limit (fired + 1) (Shot.after ⟨s.synchronize, a, agenda⟩) shots t) :
    Shots limit fired s (⟨s.synchronize, a, agenda⟩ :: shots) t

/-- Why a row of firings ends in a session, how the cycle ends then, and the session it leaves. -/
inductive Ending (limit : Option Nat) (fired : Nat) (shots : List Shot) (last : Session) :
    FireOutcome → Session → Prop
  | stopped (hok : ∀ shot ∈ shots, shot.answer = .ok ())
    (hstop : (last.halted || limit.any (· ≤ fired + shots.length)) = true) :
    Ending limit fired shots last (.finished (fired + shots.length)) last
  | idle (hok : ∀ shot ∈ shots, shot.answer = .ok ())
    (hgo : (last.halted || limit.any (· ≤ fired + shots.length)) = false)
    (hp : last.synchronize.agenda.popNext = none) :
    Ending limit fired shots last (.finished (fired + shots.length)) last.synchronize
  | failed {before : List Shot} {shot : Shot} {error : ActionError} (hshots : shots = before ++ [shot])
    (hok : ∀ earlier ∈ before, earlier.answer = .ok ()) (herror : shot.answer = .error error) :
    Ending limit fired shots last
      (.failed (.action (shot.after.ruleName shot.activation.rule) error)) last
  | unfinished (hok : ∀ shot ∈ shots, shot.answer = .ok ()) :
    Ending limit fired shots last (.unfinished (fired + shots.length)) last

/-- One more firing at the front. -/
theorem Ending.cons {last : Session} {outcome : FireOutcome} {shot : Shot}
    (h : Ending limit (fired + 1) shots last outcome t) (hshot : shot.answer = .ok ()) :
    Ending limit fired (shot :: shots) last outcome t := by
  have hlength : fired + 1 + shots.length = fired + (shot :: shots).length := by
    rw [List.length_cons]
    omega
  have hall : (∀ shot ∈ shots, shot.answer = .ok ()) →
      ∀ earlier ∈ shot :: shots, earlier.answer = .ok () := fun hok earlier hmem => by
    rcases List.mem_cons.1 hmem with rfl | hmem
    · exact hshot
    · exact hok earlier hmem
  cases h with
  | stopped hok hstop =>
    rw [hlength] at hstop ⊢
    exact .stopped (hall hok) hstop
  | idle hok hgo hp =>
    rw [hlength] at hgo ⊢
    exact .idle (hall hok) hgo hp
  | @failed before bad error hshots hok herror =>
    subst hshots
    refine @Ending.failed limit fired _ _ (shot :: before) bad error rfl (fun earlier hmem => ?_) herror
    rcases List.mem_cons.1 hmem with rfl | hmem
    · exact hshot
    · exact hok earlier hmem
  | unfinished hok =>
    rw [hlength]
    exact .unfinished (hall hok)

/-- A cycle is a row of firings that ends. -/
theorem ending_cycle (limit : Option Nat) (steps fired : Nat) (s : Session) :
    ∃ shots last, Shots limit fired s shots last ∧
      Ending limit fired shots last (cycle limit steps fired s).1 (cycle limit steps fired s).2 := by
  induction steps generalizing fired s with
  | zero => exact ⟨[], s, .nil fired s, .unfinished (by simp)⟩
  | succ steps ih =>
    unfold cycle
    split
    · next hstop => exact ⟨[], s, .nil fired s, .stopped (by simp) hstop⟩
    · next hgo =>
      have hgo := Bool.eq_false_iff.2 hgo
      dsimp only
      split
      · next hp => exact ⟨[], s, .nil fired s, .idle (by simp) hgo hp⟩
      · next a agenda hp =>
        have hfire := Shot.fire_eq ⟨s.synchronize, a, agenda⟩
        split
        · next after heq =>
          obtain ⟨hanswer, hafter⟩ := Prod.mk.inj (hfire.symm.trans heq)
          obtain ⟨shots, last, hshots, hending⟩ := ih (fired + 1) after
          refine ⟨_ :: shots, last, .cons hgo hp (hafter ▸ hshots), hending.cons ?_⟩
          cases h : Shot.answer ⟨s.synchronize, a, agenda⟩ with
          | ok => rfl
          | error error =>
            rw [h] at hanswer
            cases hanswer
        · next e after heq =>
          obtain ⟨hanswer, hafter⟩ := Prod.mk.inj (hfire.symm.trans heq)
          cases h : Shot.answer ⟨s.synchronize, a, agenda⟩ with
          | ok =>
            rw [h] at hanswer
            cases hanswer
          | error error =>
            rw [h] at hanswer
            cases hanswer
            refine ⟨[⟨s.synchronize, a, agenda⟩], after, .cons hgo hp (hafter ▸ .nil _ _), ?_⟩
            exact @Ending.failed limit fired _ after [] _ error rfl (by simp) h

/-- A cycle that has ended does not need more steps. -/
theorem cycle_of_le {outcome : FireOutcome} {steps more : Nat}
    (h : cycle limit steps fired s = (outcome, t)) (hends : ∀ count, outcome ≠ .unfinished count)
    (hle : steps ≤ more) : cycle limit more fired s = (outcome, t) := by
  have hstill : Clocked.cycle limit steps fired ⟨s, []⟩ = (outcome, ⟨t, []⟩) := by
    rw [Clocked.cycle_still, h]
  have hmore := Clocked.cycle_of_le hstill hends hle
  rw [Clocked.cycle_still] at hmore
  obtain ⟨houtcome, hleft⟩ := Prod.mk.inj hmore
  exact Prod.ext houtcome (Clocked.mk.inj hleft).1

/-- A cycle that has not ended has used up its steps. -/
theorem steps_of_unfinished {steps count : Nat}
    (h : (cycle limit steps fired s).1 = .unfinished count) : count = fired + steps := by
  have hstill : (Clocked.cycle limit steps fired ⟨s, []⟩).1 = .unfinished count := by
    rw [Clocked.cycle_still]
    exact h
  exact Clocked.steps_of_unfinished hstill

/-- Whether what a cycle leaves passes a test. This computes by structural recursion. -/
def firesListed (s : Session) (steps : Nat) (limit : Option Nat)
    (p : FireOutcome → Session → Bool) : Bool :=
  Clocked.firesListed ⟨s, []⟩ steps limit fun outcome c => p outcome c.session

theorem fireWithin_of_firesListed {steps : Nat} {p : FireOutcome → Session → Bool}
    (h : s.firesListed steps limit p = true) :
    ∃ outcome t, s.fireWithin steps limit = (outcome, t) ∧ p outcome t = true := by
  obtain ⟨outcome, c, hfire, hpasses⟩ := Clocked.fireWithin_of_firesListed h
  rw [Clocked.fireWithin_still] at hfire
  obtain ⟨houtcome, hleft⟩ := Prod.mk.inj hfire
  exact ⟨outcome, c.session, Prod.ext houtcome (congrArg Clocked.session hleft), hpasses⟩

/-! ## Firings as rounds -/

/-- A row of firings is one of rounds in which the clock stands still. -/
theorem Shots.rounds (h : Shots limit fired s shots t) :
    Clocked.Rounds limit fired ⟨s, []⟩ (shots.map Shot.still) ⟨t, []⟩ := by
  induction h with
  | nil => exact .nil _ _
  | @cons fired s t a agenda shots hgo hp _ ih =>
    have hafter : (Clocked.round ⟨s, []⟩ a agenda).after = ⟨Shot.after ⟨s.synchronize, a, agenda⟩, []⟩ :=
      Shot.after_still ⟨s.synchronize, a, agenda⟩
    exact .cons hgo hp (hafter ▸ ih)

/-- It ends as that one does. -/
theorem Ending.still {last : Session} {outcome : FireOutcome}
    (h : Ending limit fired shots last outcome t) :
    Clocked.Ending limit fired (shots.map Shot.still) ⟨last, []⟩ outcome ⟨t, []⟩ := by
  have hall : ∀ {shots : List Shot}, (∀ shot ∈ shots, shot.answer = .ok ()) →
      ∀ round ∈ shots.map Shot.still, round.answer = .ok () := fun hok =>
    List.forall_mem_map.2 fun shot hmem => shot.answer_still.trans (hok shot hmem)
  cases h with
  | stopped hok hstop =>
    rw [← List.length_map Shot.still] at hstop ⊢
    exact .stopped (hall hok) hstop
  | idle hok _ hp =>
    rw [← List.length_map Shot.still]
    exact .idle (hall hok) hp
  | @failed before shot error hshots hok herror =>
    have hfailed : EngineError.action (shot.after.ruleName shot.activation.rule) error =
        .action (shot.still.after.session.ruleName shot.still.activation.rule) error := by
      rw [shot.after_still]
      rfl
    rw [hfailed, hshots, List.map_append]
    exact .failed rfl (hall hok) (shot.answer_still.trans herror)
  | unfinished hok =>
    rw [← List.length_map Shot.still]
    exact .unfinished (hall hok)

namespace Shots

variable {base : RuleBase} {settings : Settings} {last : Session}

/-- Requests lead to every session of a row, and each firing starts from a synchronised one. -/
theorem reached (h : Shots limit fired s shots last) (hs : Reached base settings s) :
    Reached base settings last ∧ ∀ shot ∈ shots, ∃ before, Reached base settings before ∧
      shot.ready = before.synchronize := by
  obtain ⟨hlast, hall⟩ := h.rounds.reached hs
  exact ⟨hlast, fun shot hmem => hall shot.still (List.mem_map_of_mem hmem)⟩

/-- Each firing takes what is first then. -/
theorem first (h : Shots limit fired s shots last) (W : base.network.WellFormed)
    (hs : Reached base settings s) : ∀ shot ∈ shots, ∃ a, shot.ready.agenda.First a ∧
      shot.activation = { a with state := .fired } := fun shot hmem =>
  h.rounds.first W hs shot.still (List.mem_map_of_mem hmem)

/-- What has fired is counted. -/
theorem countsFired (h : Shots limit fired s shots last) (W : base.network.WellFormed)
    (hs : Reached base settings s) :
    last.agenda.counts.fired = s.agenda.counts.fired + shots.length := by
  rw [(h.rounds.past W hs).2.2, List.length_map]

/-- A count is that of firings. -/
theorem counted (h : Shots limit 0 s shots last) (hs : s.halted = false)
    {outcome : FireOutcome} (hending : Ending limit 0 shots last outcome t) {count : Nat}
    (hanswer : outcome.answer? = some (.ok count)) : shots.length = count := by
  rw [← (h.rounds.counted hs hending.still hanswer).1, List.length_map]

end Shots

/-! ## Cycles -/

/-- A firing cycle is a row of firings that ends, after which no group is locked and no halt is asked
    for. -/
theorem ending_fireWithin (s : Session) (steps : Nat) (limit : Option Nat) :
    ∃ shots last u, Shots limit 0 { s.synchronize with halted := false } shots last ∧
      Ending limit 0 shots last (s.fireWithin steps limit).1 u ∧
      (s.fireWithin steps limit).2 = { u with agenda := u.agenda.unlock, halted := false } := by
  obtain ⟨shots, last, hshots, hending⟩ :=
    ending_cycle limit steps 0 { s.synchronize with halted := false }
  exact ⟨shots, last, _, hshots, hending, rfl⟩

/-- No group is locked any more. -/
def unlock (s : Session) : Session := { s with agenda := s.agenda.unlock }

/-- A firing cycle begins with a synchronisation, and ends with an unlocked agenda. -/
theorem fireWithin_of_cycle {steps : Nat} {outcome : FireOutcome}
    (h : cycle limit steps 0 { s.synchronize with halted := false } = (outcome, t)) :
    s.fireWithin steps limit = (outcome, { t.unlock with halted := false }) := by
  unfold fireWithin
  rw [h]
  rfl

theorem fireWithin_of_le {steps more : Nat} {outcome : FireOutcome}
    (h : s.fireWithin steps limit = (outcome, t)) (hends : ∀ count, outcome ≠ .unfinished count)
    (hle : steps ≤ more) : s.fireWithin more limit = (outcome, t) := by
  obtain ⟨⟨outcome', u⟩, hcycle⟩ :
      ∃ r, cycle limit steps 0 { s.synchronize with halted := false } = r := ⟨_, rfl⟩
  obtain ⟨rfl, rfl⟩ := Prod.mk.inj ((fireWithin_of_cycle hcycle).symm.trans h)
  exact fireWithin_of_cycle (cycle_of_le hcycle hends hle)

end Session

end RuleNet
