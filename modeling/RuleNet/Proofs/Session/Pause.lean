/-
  A firing limit pauses a run.

  At a limit the cycle ends: the group that fired is unlocked, and the next cycle begins with a
  synchronisation of its own. Where no rule heeds the lock of its group, and no action fails or halts
  the cycle, the next cycle goes on as if there had been no end.

  * `Session.unlock`, `Session.synchronize_unlock`: locks are forgotten, and nobody notices.
  * `Session.cycle_shift`: how many fired before matters to the limit only.
  * `Session.Parted`: where the first of two cycles ends, and what the long one does then.
  * `Session.fireWithin_pause`: two cycles in a row are one.
-/
import RuleNet.Proofs.Session.Cycle
import RuleNet.Proofs.Session.Settled

namespace RuleNet

/-- No rule heeds the lock of its group. -/
def RuleBase.Lockless (base : RuleBase) : Prop := ∀ rule ∈ base.rules, rule.lockOnActive = false

/-- Whatever the session answers, the action neither fails nor halts the cycle. -/
def Action.Smooth : Action → Prop
  | done => True
  | fail _ => False
  | insert _ next => ∀ answer, (next answer).Smooth
  | update _ _ next => ∀ answer, (next answer).Smooth
  | modify _ _ next => ∀ answer, (next answer).Smooth
  | retract _ next => ∀ answer, (next answer).Smooth
  | look _ next => ∀ answer, (next answer).Smooth
  | focus _ next => next.Smooth
  | popFocus next => ∀ answer, (next answer).Smooth
  | clearGroup _ next => ∀ answer, (next answer).Smooth
  | halt _ => False
  | now next => ∀ answer, (next answer).Smooth
  | query _ _ next => ∀ answer, (next answer).Smooth
  | readGlobal _ next => ∀ answer, (next answer).Smooth
  | writeGlobal _ _ next => next.Smooth

/-- So many activations have fired before. -/
def FireOutcome.after (before : Nat) : FireOutcome → FireOutcome
  | finished count => finished (before + count)
  | failed e => failed e
  | unfinished count => unfinished (before + count)

/-! ## Locks -/

/-- A cycle that has finished has not used up its steps. -/
theorem FireOutcome.finished_ne (fired count : Nat) : FireOutcome.finished fired ≠ .unfinished count := by
  rintro ⟨⟩

namespace Agenda

variable {agenda : Agenda}

theorem setFocus_unlock (group : String) :
    agenda.unlock.setFocus group = (agenda.setFocus group).unlock := by
  unfold setFocus
  show (if agenda.focus = group then _ else _) = _
  split <;> rfl

theorem cancel_unlock (terminal token : Nat) : agenda.unlock.cancel terminal token =
    ((agenda.cancel terminal token).1, (agenda.cancel terminal token).2.unlock) := by
  cases hid : agenda.byToken[(terminal, token)]? with
  | none =>
    have hid' : agenda.unlock.byToken[(terminal, token)]? = none := hid
    simp only [cancel, hid, hid']
  | some id =>
    have hid' : agenda.unlock.byToken[(terminal, token)]? = some id := hid
    cases ha : agenda.get? id with
    | none =>
      have ha' : agenda.unlock.get? id = none := ha
      simp only [cancel, hid, hid', ha, ha']
      rfl
    | some a =>
      have ha' : agenda.unlock.get? id = some a := ha
      simp only [cancel, hid, hid', ha, ha']
      rfl

/-- What is first does not depend on the lock, and the group it belongs to is locked then. -/
theorem popNext_unlock : agenda.unlock.popNext = agenda.popNext := rfl

end Agenda

namespace Session

variable {s t : Session}

theorem unlock_unlock (s : Session) : s.unlock.unlock = s.unlock := rfl

/-- A session that is not halted need not be cleared. -/
theorem unlock_of_not_halted (h : s.halted = false) : { s.unlock with halted := false } = s.unlock := by
  rw [← h]
  rfl

theorem activate_unlock (hfree : s.base.Lockless) (τ : TerminalId)
    (t : TokenId) : s.unlock.activate τ t = (s.activate τ t).unlock := by
  cases hterminal : s.network.terminal? τ with
  | none =>
    have hterminal' : s.unlock.network.terminal? τ = none := hterminal
    simp only [activate, hterminal, hterminal']
  | some terminal =>
    have hterminal' : s.unlock.network.terminal? τ = some terminal := hterminal
    cases hrule : s.base.rules[terminal.rule]? with
    | none =>
      have hrule' : s.unlock.base.rules[terminal.rule]? = none := hrule
      simp only [activate, hterminal, hterminal', hrule, hrule']
    | some rule =>
      have hrule' : s.unlock.base.rules[terminal.rule]? = some rule := hrule
      have hsuppressed : s.unlock.isSuppressed terminal.rule rule =
          s.isSuppressed terminal.rule rule := by
        unfold isSuppressed
        rw [hfree rule (List.mem_of_getElem? hrule), Bool.false_and, Bool.false_and]
        rfl
      simp only [activate, hterminal, hterminal', hrule, hrule', hsuppressed]
      split
      · rfl
      · obtain ⟨agenda, hagenda⟩ : ∃ agenda, s.agenda.create terminal.rule τ t rule.salience
            rule.group (s.matching.binding s.store terminal.scope t) = agenda := ⟨_, rfl⟩
        have hagenda' : s.unlock.agenda.create terminal.rule τ t rule.salience rule.group
            (s.unlock.matching.binding s.unlock.store terminal.scope t) = agenda.unlock := by
          rw [← hagenda]
          rfl
        have hfocused : (if rule.autoFocus then agenda.unlock.setFocus rule.group
            else agenda.unlock) =
            (if rule.autoFocus then agenda.setFocus rule.group else agenda).unlock := by
          split
          · exact Agenda.setFocus_unlock rule.group
          · rfl
        have hcreated : agenda.unlock.get? s.unlock.agenda.nextId = agenda.get? s.agenda.nextId := rfl
        simp only [hagenda, hagenda', hfocused, hcreated]
        cases agenda.get? s.agenda.nextId with
        | some activation => rfl
        | none => rfl

theorem deactivate_unlock (τ : TerminalId) (t : TokenId) :
    s.unlock.deactivate τ t = (s.deactivate τ t).unlock := by
  have hcancel : s.unlock.agenda.cancel τ t =
      ((s.agenda.cancel τ t).1, (s.agenda.cancel τ t).2.unlock) := Agenda.cancel_unlock τ t
  simp only [deactivate, hcancel]
  cases (s.agenda.cancel τ t).1 with
  | some activation => rfl
  | none => rfl

theorem applyEvents_unlock (hfree : s.base.Lockless) :
    s.unlock.applyEvents = s.applyEvents.unlock := by
  have hall : ∀ (events : List MatchEvent) {s : Session},
      s.base.Lockless →
      events.foldl applyEvent s.unlock = (events.foldl applyEvent s).unlock := by
    intro events
    induction events with
    | nil => exact fun _ => rfl
    | cons event rest ih =>
      intro s hfree
      rw [List.foldl_cons, List.foldl_cons]
      cases event with
      | formed τ t =>
        show rest.foldl applyEvent (s.unlock.activate τ t) = _
        rw [activate_unlock hfree]
        exact ih (by rw [(s.aligned_activate τ t).base]; exact hfree)
      | broken τ t =>
        show rest.foldl applyEvent (s.unlock.deactivate τ t) = _
        rw [deactivate_unlock]
        exact ih (by rw [(s.aligned_deactivate τ t).base]; exact hfree)
  exact @hall _ { s with matching := { s.matching with events := #[] } } hfree

theorem remove_unlock (hfree : s.base.Lockless) (i : Handle) :
    (s.unlock.remove i).2 = (s.remove i).2.unlock := by
  cases hr : s.store.remove? i with
  | error e =>
    have hr' : s.unlock.store.remove? i = .error e := hr
    simp only [remove, hr, hr']
    rfl
  | ok removed =>
    obtain ⟨entry, store⟩ := removed
    rw [remove_eq hr, @remove_eq s.unlock i entry store hr]
    exact @applyEvents_unlock { s with
      store
      matching := s.matching.retract s.network s.store i
      expiry := s.expiry.cancel i
      journal := s.journal.push (.retracted i entry.fact) } hfree

theorem expireEach_unlock (hfree : s.base.Lockless)
    (due : List Handle) : due.foldl expire s.unlock = (due.foldl expire s).unlock := by
  induction due generalizing s with
  | nil => rfl
  | cons i rest ih =>
    have hexpire : s.unlock.expire i = (s.expire i).unlock := by
      unfold expire
      show (if s.store.contains i = true then _ else _) = _
      split
      · exact remove_unlock hfree i
      · rfl
    rw [List.foldl_cons, List.foldl_cons, hexpire]
    refine ih ?_
    rw [(s.onto_expire i).base]
    exact hfree

/-- A synchronisation lets facts go, and then the windows what is too old for them. -/
theorem synchronize_of_gone
    (h : (s.expiry.due s.now).foldl expire { s with expiry := s.expiry.takeDue s.now } = t) :
    s.synchronize =
      ({ t with matching := t.matching.expireWindows t.network t.store s.now }).applyEvents := by
  unfold synchronize
  simp only [h]

/-- Where no rule heeds the lock of its group, a synchronisation does not either. -/
theorem synchronize_unlock (hfree : s.base.Lockless) :
    s.unlock.synchronize = s.synchronize.unlock := by
  obtain ⟨taken, htaken⟩ : ∃ taken, { s with expiry := s.expiry.takeDue s.now } = taken := ⟨_, rfl⟩
  have hfree' : taken.base.Lockless := htaken ▸ hfree
  obtain ⟨t, ht⟩ : ∃ t, (s.expiry.due s.now).foldl expire taken = t := ⟨_, rfl⟩
  have hgone : (s.expiry.due s.now).foldl expire taken.unlock = t.unlock := by
    rw [expireEach_unlock hfree', ht]
  have hbase : t.base = taken.base := by rw [← ht, (carries_onto.foldl onto_expire _ taken).base]
  have hwindows := @applyEvents_unlock
    { t with matching := t.matching.expireWindows t.network t.store s.now }
    (by rw [hbase]; exact hfree')
  rw [← htaken] at ht hgone
  rw [synchronize_of_gone ht, @synchronize_of_gone s.unlock t.unlock hgone]
  exact hwindows

/-! ## Parts of a cycle -/

variable {base : RuleBase} {settings : Settings} {limit : Option Nat} {steps : Nat}

/-- How many fired before matters to the limit only. -/
theorem cycle_shift (before n steps fired : Nat) (s : Session) :
    cycle (some (before + n)) steps (before + fired) s =
      ((cycle (some n) steps fired s).1.after before, (cycle (some n) steps fired s).2) := by
  induction steps generalizing s fired with
  | zero => rfl
  | succ steps ih =>
    have hlimit : (some (before + n)).any (· ≤ before + fired) = (some n).any (· ≤ fired) := by
      simp only [Option.any_some, Nat.add_le_add_iff_left]
    unfold cycle
    rw [hlimit]
    split
    · rfl
    · dsimp only
      split
      · rfl
      · split
        · exact ih (fired + 1) _
        · rfl

/-- No action fails or halts the cycle, whatever session it runs in. -/
def Calm (base : RuleBase) (settings : Settings) : Prop :=
  ∀ shot : Shot, Reached base settings shot.ready →
    shot.ready.agenda.popNext = some (shot.activation, shot.rest) →
    shot.answer = .ok () ∧ shot.halts = false

/-- An action that neither fails nor halts does neither in any session. -/
theorem smooth_perform (action : Action) (h : action.Smooth) (s : Session) :
    (perform action s).1 = .ok () ∧ halts action s = false := by
  induction action generalizing s with
  | done => exact ⟨rfl, rfl⟩
  | fail error => exact h.elim
  | halt next ih => exact h.elim
  | insert fact next ih => exact ih _ (h _) _
  | update i fact next ih => exact ih _ (h _) _
  | modify i change next ih => exact ih _ (h _) _
  | retract i next ih => exact ih _ (h _) _
  | look i next ih => exact ih _ (h _) _
  | focus group next ih => exact ih h _
  | popFocus next ih => exact ih _ (h _) _
  | clearGroup group next ih => exact ih _ (h _) _
  | now next ih => exact ih _ (h _) _
  | query name params next ih => exact ih _ (h _) _
  | readGlobal name next ih => exact ih _ (h _) _
  | writeGlobal name value next ih => exact ih h _

/-- So it is where all actions are of this kind. -/
theorem calm_of_smooth (W : base.network.WellFormed)
    (h : ∀ rule ∈ base.rules, ∀ firing, (rule.action firing).Smooth) : Calm base settings := by
  intro shot hready _
  have hsmooth : shot.action.Smooth := by
    unfold Shot.action actionOf
    rw [(hready.steady W).2.1]
    split
    · next rule hrule => exact h rule (List.mem_of_getElem? hrule) _
    · trivial
  exact smooth_perform shot.action hsmooth shot.begun

/-- Every firing succeeds, and the cycle goes on. -/
theorem Calm.fire (hcalm : Calm base settings) (hs : Reached base settings s)
    (hhalted : s.halted = false) {a : Activation} {agenda : Agenda}
    (hp : s.synchronize.agenda.popNext = some (a, agenda)) :
    ∃ t, ({ s.synchronize with agenda } : Session).fire a = (.ok (), t) ∧
      Reached base settings t ∧ t.halted = false := by
  have hready := hs.step (.synchronize s)
  obtain ⟨hanswer, hhalts⟩ := hcalm ⟨s.synchronize, a, agenda⟩ hready hp
  have hfire := Shot.fire_eq ⟨s.synchronize, a, agenda⟩
  rw [hanswer] at hfire
  refine ⟨_, hfire, hready.fire hp, ?_⟩
  rw [(Shot.performed_after _).2.2.1, hhalts, Bool.or_false]
  exact s.onto_synchronize.halted.trans hhalted

/-- Where the first part of a run ends: with nothing left to fire, and then all of the run ends there;
    or at the limit, and then all of the run goes on from there. -/
theorem Calm.part (hcalm : Calm base settings) (W : base.network.WellFormed)
    (hclock : settings.clock = .manual) (m fired : Nat) (hs : Reached base settings s)
    (hhalted : s.halted = false) : ∃ count t,
      cycle (some (fired + m)) (m + 1) fired s = (.finished count, t) ∧
      Reached base settings t ∧ t.halted = false ∧
      ((t.agenda.popNext = none ∧ t.synchronize = t ∧
          ∀ n, cycle (some (fired + m + n)) (m + 1) fired s = (.finished count, t)) ∨
        (count = fired + m ∧ ∀ n more, cycle (some (fired + m + n)) (m + more) fired s =
          cycle (some (fired + m + n)) more (fired + m) t)) := by
  induction m generalizing s fired with
  | zero =>
    refine ⟨fired, s, ?_, hs, hhalted, .inr ⟨rfl, fun n more => ?_⟩⟩
    · unfold cycle
      simp
    · rw [Nat.zero_add, Nat.add_zero]
  | succ m ih =>
    have hgo : ∀ n, ¬ (s.halted || (some (fired + (m + 1) + n)).any (· ≤ fired)) = true := fun n => by
      rw [hhalted, Option.any_some, Bool.false_or, decide_eq_true_eq]
      omega
    cases hp : s.synchronize.agenda.popNext with
    | none =>
      have hend : ∀ n, cycle (some (fired + (m + 1) + n)) (m + 1 + 1) fired s =
          (.finished fired, s.synchronize) := fun n => by
        unfold cycle
        rw [if_neg (hgo n)]
        simp only [hp]
      exact ⟨fired, s.synchronize, hend 0, hs.step (.synchronize s),
        s.onto_synchronize.halted.trans hhalted, .inl ⟨hp, hs.synchronize_twice W hclock, hend⟩⟩
    | some popped =>
      obtain ⟨a, agenda⟩ := popped
      obtain ⟨t, hfire, ht, hthalted⟩ := hcalm.fire hs hhalted hp
      have hnext : ∀ n more, cycle (some (fired + (m + 1) + n)) (more + 1) fired s =
          cycle (some (fired + 1 + m + n)) more (fired + 1) t := fun n more => by
        conv => lhs; unfold cycle
        rw [if_neg (hgo n)]
        simp only [hp, hfire]
        rw [Nat.add_right_comm fired 1 m, Nat.add_assoc fired m 1]
      obtain ⟨count, u, hcycle, hu, huhalted, hrest⟩ := ih (fired + 1) ht hthalted
      refine ⟨count, u, (hnext 0 (m + 1)).trans hcycle, hu, huhalted, ?_⟩
      rcases hrest with ⟨hidle, hsettled, hall⟩ | ⟨hcount, hall⟩
      · exact .inl ⟨hidle, hsettled, fun n => (hnext n (m + 1)).trans (hall n)⟩
      · refine .inr ⟨by omega, fun n more => ?_⟩
        have hswap : m + 1 + more = m + more + 1 := by omega
        have hsum : fired + (m + 1) = fired + 1 + m := by omega
        rw [hswap, hnext, hall, hsum]

/-- Where a run has been paused, its next cycle starts like the one that was not ended. -/
theorem cycle_synchronize_unlock (W : base.network.WellFormed) (hclock : settings.clock = .manual)
    (hfree : base.Lockless) (hs : Reached base settings s)
    (hgo : (s.halted || limit.any (· ≤ 0)) = false) (steps : Nat) :
    (cycle limit (steps + 1) 0 s.synchronize.unlock).1 = (cycle limit (steps + 1) 0 s).1 ∧
    (cycle limit (steps + 1) 0 s.synchronize.unlock).2.unlock =
      (cycle limit (steps + 1) 0 s).2.unlock := by
  have hbase : s.synchronize.base = base := ((hs.step (.synchronize s)).steady W).2.1
  have hsync : s.synchronize.unlock.synchronize = s.synchronize.unlock := by
    rw [synchronize_unlock (by rw [hbase]; exact hfree), hs.synchronize_twice W hclock]
  have hhalted := s.onto_synchronize.halted
  unfold cycle
  generalize s.synchronize = r at hsync hhalted ⊢
  have hgo' : (r.unlock.halted || limit.any (· ≤ 0)) = false := by
    rw [← hgo, ← hhalted]
    rfl
  rw [if_neg (Bool.eq_false_iff.1 hgo), if_neg (Bool.eq_false_iff.1 hgo'), hsync]
  -- what is taken brings its own lock
  have hpop : r.unlock.agenda.popNext = r.agenda.popNext := Agenda.popNext_unlock
  dsimp only
  rw [hpop]
  cases r.agenda.popNext with
  | none => exact ⟨rfl, rfl⟩
  | some popped => exact ⟨rfl, rfl⟩

/-- A cycle that may not fire stops where it has been opened. -/
theorem fireWithin_none (s : Session) (steps : Nat) : s.fireWithin (steps + 1) (some 0) =
    (.finished 0, { s.synchronize.unlock with halted := false }) := by
  refine @fireWithin_of_cycle s { s.synchronize with halted := false } (some 0) (steps + 1) _ ?_
  unfold cycle
  simp

/-- Where no rule heeds the lock of its group, and no action fails or halts the cycle, a limit only
    pauses a run: two cycles in a row fire what one cycle fires that has both their limits together,
    and leave the same session, with the same journal. A second cycle that may not fire at all still
    lets go what is overdue. -/
theorem fireWithin_pause {declarations : Declarations} (hb : declarations.build = .ok base)
    (hs : Reached base settings s) (hclock : settings.clock = .manual) (hfree : base.Lockless)
    (hcalm : Calm base settings) (m n : Nat) (hsteps : m + n < steps) : ∃ first second t₁ t₂,
      s.fireWithin steps (some m) = (.finished first, t₁) ∧
      t₁.fireWithin steps (some n) = (.finished second, t₂) ∧
      (n ≠ 0 → s.fireWithin steps (some (m + n)) = (.finished (first + second), t₂)) ∧
      (n = 0 → second = 0 ∧ t₂ = t₁.synchronize) := by
  have W := Declarations.wellFormed_build hb
  have hstart : Reached base settings { s.synchronize with halted := false } :=
    (hs.step (.synchronize s)).step (.halt _ false)
  obtain ⟨first, t, hfirst, ht, hhalted, hrest⟩ := hcalm.part W hclock m 0 hstart rfl
  rw [Nat.zero_add] at hfirst hrest
  have hbase : t.base = base := (ht.steady W).2.1
  have hfirst := fireWithin_of_cycle
    (cycle_of_le hfirst (FireOutcome.finished_ne _) (by omega : m + 1 ≤ steps))
  rw [unlock_of_not_halted hhalted] at hfirst
  have hsync : t.unlock.synchronize = t.synchronize.unlock :=
    synchronize_unlock (by rw [hbase]; exact hfree)
  have hquiet : t.synchronize.halted = false := t.onto_synchronize.halted.trans hhalted
  have hopen : { t.unlock.synchronize with halted := false } = t.synchronize.unlock := by
    rw [hsync]
    exact unlock_of_not_halted hquiet
  obtain ⟨steps, rfl⟩ : ∃ more, steps = more + 1 := Nat.exists_eq_succ_of_ne_zero (by omega)
  by_cases hn : n = 0
  · subst hn
    refine ⟨first, 0, t.unlock, t.unlock.synchronize, hfirst, ?_, (absurd rfl ·), fun _ => ⟨rfl, rfl⟩⟩
    rw [fireWithin_none, hsync, unlock_unlock, unlock_of_not_halted hquiet]
  · have hlt : (t.halted || (some n).any (· ≤ 0)) = false := by
      rw [hhalted, Option.any_some, Bool.false_or, decide_eq_false_iff_not]
      omega
    obtain ⟨hsame, hleft⟩ := cycle_synchronize_unlock W hclock hfree ht hlt n
    obtain ⟨second, u, hsecond, -, huhalted, -⟩ := hcalm.part W hclock n 0 ht hhalted
    rw [Nat.zero_add] at hsecond
    rw [hsecond] at hsame hleft
    obtain ⟨⟨outcome, u'⟩, hcycle⟩ : ∃ r, cycle (some n) (n + 1) 0 t.synchronize.unlock = r := ⟨_, rfl⟩
    rw [hcycle] at hsame hleft
    obtain rfl : outcome = .finished second := hsame
    have hleft : u'.unlock = u.unlock := hleft
    have hnext := cycle_of_le hcycle (FireOutcome.finished_ne _) (by omega : n + 1 ≤ steps + 1)
    rw [← hopen] at hnext
    refine ⟨first, second, t.unlock, u.unlock, hfirst, ?_, fun _ => ?_, (absurd · hn)⟩
    · rw [fireWithin_of_cycle hnext, hleft, unlock_of_not_halted huhalted]
    · rcases hrest with ⟨hidle, hsettled, hall⟩ | ⟨rfl, hall⟩
      · -- nothing was left to fire, and still nothing is
        have hstill : cycle (some n) (n + 1) 0 t = (.finished 0, t) := by
          unfold cycle
          rw [if_neg (Bool.eq_false_iff.1 hlt), hsettled]
          simp only [hidle]
        obtain ⟨hzero, rfl⟩ := Prod.mk.inj (hstill.symm.trans hsecond)
        obtain rfl : 0 = second := FireOutcome.finished.inj hzero
        rw [fireWithin_of_cycle (cycle_of_le (hall n) (FireOutcome.finished_ne _) (by omega)),
          unlock_of_not_halted hhalted]
        rfl
      · have hlong := hall n (n + 1)
        have hshift : cycle (some (first + n)) (n + 1) first t = _ := cycle_shift first n (n + 1) 0 t
        rw [hshift, hsecond] at hlong
        rw [fireWithin_of_cycle (cycle_of_le hlong (FireOutcome.finished_ne _) (by omega)),
          unlock_of_not_halted huhalted]
        rfl

/-- Each call is answered by an echo that is overdue when it comes. -/
def echoes : Declarations where
  types := [⟨"call", [("id", .integer)], .fact, none, none⟩,
    ⟨"echo", [("at", .integer)], .event, some "at", some (.ofMillis 100)⟩]
  rules := [⟨"answer", 0, mainGroup, false, false, false, .pattern ⟨"call", none, [], [], none⟩,
    fun _ => .insert ⟨"echo", [("at", .integer 0)]⟩ fun _ => .done⟩]
  queries := []

def lateSettings : Settings := { Settings.standard with clock := .manual, clockStart := 1000 }

theorem lockless_echoes (hb : echoes.build = .ok base) : base.Lockless := by
  have hrules : base.rules = echoes.rules := by rw [(Declarations.build_eq hb).2]
  unfold RuleBase.Lockless
  rw [hrules]
  simp [echoes]

theorem calm_echoes (hb : echoes.build = .ok base) : Calm base settings := by
  have hrules : base.rules = echoes.rules := by rw [(Declarations.build_eq hb).2]
  refine calm_of_smooth (Declarations.wellFormed_build hb) fun rule hrule firing => ?_
  rw [hrules] at hrule
  obtain rfl := List.mem_singleton.1 hrule
  exact fun _ => trivial

/-- Two calls wait. -/
def callsRun (base : RuleBase) : Session :=
  ((start base lateSettings 0).change (.insert ⟨"call", [("id", .integer 1)]⟩)).change
    (.insert ⟨"call", [("id", .integer 2)]⟩)

theorem reached_callsRun (base : RuleBase) : Reached base lateSettings (callsRun base) :=
  ((Reached.start 0).change _).change _

/-- The first echo is left by one cycle, and let go by the next one. -/
theorem fireWithin_pause_callsRun : ∃ base t₁ t₂, echoes.build = .ok base ∧
    Reached base lateSettings (callsRun base) ∧ base.Lockless ∧ Calm base lateSettings ∧
    (callsRun base).fireWithin 3 (some 1) = (.finished 1, t₁) ∧ t₁.store.contains 3 = true ∧
    t₁.fireWithin 3 (some 1) = (.finished 1, t₂) ∧ t₂.store.contains 3 = false ∧
    (callsRun base).fireWithin 3 (some 2) = (.finished 2, t₂) := by
  obtain ⟨base, hb, hrun⟩ := Declarations.build_of_passes echoes (fun base =>
    (callsRun base).firesListed 3 (some 1) fun outcome t => decide (outcome = .finished 1) &&
      t.firesListed 3 (some 1) fun outcome' t' => decide (outcome' = .finished 1) &&
        t.store.contains 3 && !t'.store.contains 3) (by decide +kernel)
  obtain ⟨outcome₁, t₁, hfirst, hpasses⟩ := fireWithin_of_firesListed hrun
  obtain ⟨houtcome₁, hrun'⟩ := Bool.and_eq_true_iff.1 hpasses
  obtain ⟨outcome₂, t₂, hsecond, hpasses'⟩ := fireWithin_of_firesListed hrun'
  simp only [Bool.and_eq_true, decide_eq_true_eq, Bool.not_eq_true'] at houtcome₁ hpasses'
  obtain ⟨⟨houtcome₂, hstored⟩, hgone⟩ := hpasses'
  subst houtcome₁ houtcome₂
  obtain ⟨first, second, t, u, hfirst', hsecond', hlong, -⟩ :=
    fireWithin_pause hb (reached_callsRun base) rfl (lockless_echoes hb) (calm_echoes hb) 1 1
      (by decide : 1 + 1 < 3)
  cases hfirst.symm.trans hfirst'
  cases hsecond.symm.trans hsecond'
  exact ⟨base, t₁, t₂, hb, reached_callsRun base, lockless_echoes hb, calm_echoes hb, hfirst, hstored,
    hsecond, hgone, hlong (by decide)⟩

/-- A second cycle that may not fire is no pause: the echo that the first one left is gone after it. -/
theorem callsRun_without_second : ∃ base, echoes.build = .ok base ∧
    Reached base lateSettings (callsRun base) ∧ base.Lockless ∧ Calm base lateSettings ∧
    ¬ ∀ m n steps, m + n < steps →
      (((callsRun base).fireWithin steps (some m)).2.fireWithin steps (some n)).2 =
        ((callsRun base).fireWithin steps (some (m + n))).2 := by
  obtain ⟨base, hb, hrun⟩ := Declarations.build_of_passes echoes (fun base =>
    (callsRun base).firesListed 3 (some 1) fun _ t => t.firesListed 3 (some 0) fun _ t' =>
      t.store.contains 3 && !t'.store.contains 3) (by decide +kernel)
  obtain ⟨outcome₁, t₁, hfirst, hrun'⟩ := fireWithin_of_firesListed hrun
  obtain ⟨outcome₂, t₂, hsecond, hpasses⟩ := fireWithin_of_firesListed hrun'
  rw [Bool.and_eq_true, Bool.not_eq_true'] at hpasses
  refine ⟨base, hb, reached_callsRun base, lockless_echoes hb, calm_echoes hb, fun hall => ?_⟩
  have hsame := hall 1 0 3 (by decide)
  rw [hfirst, hsecond] at hsame
  have hsame : t₂ = t₁ := hsame
  rw [hsame, hpasses.1] at hpasses
  cases hpasses.2

end Session

end RuleNet
