/-
  Rules that do not loop.

  While the action of such a rule runs, the rule gets no new activation. Where it is the only rule, no
  activation at all is made then; and if the actions leave nothing overdue, none is made between two
  firings either. So what waits becomes less with each firing, and a firing cycle ends.

  * `Session.Sole`: all rules do not loop, and their own action is running.
  * `Session.Barren`, `Session.barren_perform`: then a session gives out no number.
  * `Session.length_of_shots`: a row of firings is no longer than what waited before it.
  * `Session.ends_of_noLoop`: a firing cycle ends, after so many firings at most.
-/
import Mathlib.Data.List.Perm.Subperm
import RuleNet.Proofs.Session.Cycle
import RuleNet.Proofs.Session.Settled

namespace RuleNet

namespace Agenda

variable {agenda agenda' : Agenda}

/-- Where all that waits has waited before, and one activation does not wait any more, less waits. -/
theorem Consistent.length_pending_lt (h : agenda.Consistent) (h' : agenda'.Consistent)
    (hold : ∀ {id a}, agenda'.get? id = some a → agenda.get? id = some a) {id : ActivationId}
    {a : Activation} (ha : agenda.get? id = some a) (hgone : agenda'.get? id = none) :
    agenda'.pending.length < agenda.pending.length := by
  have hnot : a ∉ agenda'.pending := fun hmem => by
    obtain ⟨id', hid'⟩ := h'.mem_pending.1 hmem
    obtain rfl : id = id' := (h.fresh ha).1.symm.trans (h'.fresh hid').1
    rw [hgone] at hid'
    cases hid'
  have hsub : a :: agenda'.pending ⊆ agenda.pending := by
    intro b hb
    rcases List.mem_cons.1 hb with rfl | hb
    · exact h.mem_pending.2 ⟨id, ha⟩
    · obtain ⟨id', hid'⟩ := h'.mem_pending.1 hb
      exact h.mem_pending.2 ⟨id', hold hid'⟩
  exact (List.subperm_of_subset (List.nodup_cons.2 ⟨hnot, h'.nodup_pending⟩) hsub).length_le

end Agenda

namespace Session

variable {s t : Session} {base : RuleBase} {settings : Settings}

/-! ## Actions that give rise to nothing -/

/-- The action of the only rule is running, and the rule does not loop. -/
def Sole (s : Session) : Prop :=
  ∀ {place rule}, s.base.rules[place]? = some rule → rule.noLoop = true ∧ s.firing = some place

/-- The rules and the mark stay; if the action of the only rule is running and does not loop, no new
    activation gets a number. -/
structure Barren (s t : Session) : Prop where
  base : t.base = s.base
  firing : t.firing = s.firing
  next : s.Sole → t.agenda.nextId = s.agenda.nextId

namespace Barren

theorem refl (s : Session) : s.Barren s := ⟨rfl, rfl, fun _ => rfl⟩

theorem trans {u : Session} (h : s.Barren t) (h' : t.Barren u) : s.Barren u where
  base := h'.base.trans h.base
  firing := h'.firing.trans h.firing
  next hs := by
    have ht : t.Sole := fun {place rule} hrule => by
      rw [h.base] at hrule
      rw [h.firing]
      exact hs hrule
    rw [h'.next ht, h.next hs]

end Barren

/-- The only rule has got a match, and no activation for it. -/
theorem barren_activate (s : Session) (τ : TerminalId) (t : TokenId) : s.Barren (s.activate τ t) := by
  have A := aligned_activate s τ t
  refine ⟨A.base, A.firing, fun hs => ?_⟩
  unfold activate
  split
  · rfl
  · next terminal _ =>
    split
    · rfl
    · next rule hrule =>
      obtain ⟨hnoLoop, hfiring⟩ := hs hrule
      have hsuppressed : s.isSuppressed terminal.rule rule = true := by
        unfold isSuppressed
        rw [hnoLoop, hfiring]
        simp
      rw [if_pos hsuppressed]
      rfl

theorem barren_deactivate (s : Session) (τ : TerminalId) (t : TokenId) :
    s.Barren (s.deactivate τ t) := by
  have A := aligned_deactivate s τ t
  refine ⟨A.base, A.firing, fun _ => ?_⟩
  have hcancel : (s.agenda.cancel τ t).2.nextId = s.agenda.nextId := by
    unfold Agenda.cancel
    split
    · rfl
    · split <;> rfl
  unfold deactivate
  dsimp only
  split <;> exact hcancel

theorem carries_barren : Carries Barren where
  refl := .refl
  trans := .trans
  beside _ _ _ _ _ _ := ⟨rfl, rfl, fun _ => rfl⟩
  activate := barren_activate
  deactivate := barren_deactivate

theorem barren_clearGroup (s : Session) (group : String) : s.Barren (s.clearGroup group).2 := by
  rw [clearGroup_eq]
  exact ⟨rfl, rfl, fun _ => (Agenda.rest_strikeAll _ _).2.1⟩

/-- The action of the only rule gives rise to no activation, if the rule does not loop. -/
theorem barren_perform (action : Action) (s : Session) : s.Barren (perform action s).2 := by
  have O : Obeys Barren := by
    refine ⟨.refl, .trans, carries_barren.change, fun s group => ?_, fun s => ?_,
      barren_clearGroup, fun _ => ?_, fun _ _ => ?_⟩
    · exact ⟨rfl, rfl, fun _ => s.agenda.nextId_setFocus group⟩
    · exact ⟨rfl, rfl, fun _ => s.agenda.nextId_popFocus⟩
    · exact ⟨rfl, rfl, fun _ => rfl⟩
    · exact ⟨rfl, rfl, fun _ => rfl⟩
  exact O.perform action s

/-! ## Rows of firings -/

variable {rule : Rule} {limit : Option Nat} {fired : Nat} {shots : List Shot} {last : Session}

/-- What is taken is an activation of the only rule. -/
theorem sole_begun (W : base.network.WellFormed) (hrules : base.rules = [rule])
    (hnoLoop : rule.noLoop = true) {shot : Shot} (hready : Reached base settings shot.ready)
    (hp : shot.ready.agenda.popNext = some (shot.activation, shot.rest)) : shot.begun.Sole := by
  obtain ⟨hsteady, hbase, -⟩ := hready.steady W
  obtain ⟨b, id, hb, ha, -⟩ := Agenda.drops_popNext hsteady.agenda hp
  obtain ⟨terminal, rule', hf, -⟩ := hsteady.current hb
  have hof : [rule][b.rule]? = some rule' := by
    rw [← hrules, ← hbase]
    exact hf.of
  have hzero : b.rule = 0 := by
    have hlt := (List.getElem?_eq_some_iff.1 hof).1
    rw [List.length_singleton] at hlt
    omega
  intro place rule'' hrule
  have hrule : shot.ready.base.rules[place]? = some rule'' := hrule
  rw [hbase, hrules] at hrule
  have hplace : place = 0 := by
    have hlt := (List.getElem?_eq_some_iff.1 hrule).1
    rw [List.length_singleton] at hlt
    omega
  subst hplace
  obtain rfl : rule = rule'' := Option.some.inj hrule
  refine ⟨hnoLoop, ?_⟩
  show some shot.activation.rule = some 0
  rw [ha, ← hzero]

/-- Less waits after a firing than before. -/
theorem length_of_shot (W : base.network.WellFormed) (hrules : base.rules = [rule])
    (hnoLoop : rule.noLoop = true) (shot : Shot) (hready : Reached base settings shot.ready)
    (hp : shot.ready.agenda.popNext = some (shot.activation, shot.rest)) :
    shot.after.agenda.pending.length < shot.ready.agenda.pending.length := by
  have hconsistent := (hready.steady W).1.agenda
  have hafter := ((hready.fire hp).steady W).1.agenda
  obtain ⟨b, id, hb, -, D⟩ := Agenda.drops_popNext hconsistent hp
  have hlater := (Shot.performed_after shot).2.2.2
  have hnext : shot.after.agenda.nextId = shot.rest.nextId := by
    have hbarren := (barren_perform shot.action shot.begun).next (sole_begun W hrules hnoLoop hready hp)
    unfold Shot.after Session.fire
    dsimp only
    split <;> exact hbarren
  have hold : ∀ {id a}, shot.after.agenda.get? id = some a → shot.rest.get? id = some a := fun ha =>
    hlater.waits (hnext ▸ (hafter.fresh ha).2) ha
  refine hconsistent.length_pending_lt hafter (fun ha => (D.get?.1 (hold ha)).1) hb ?_
  refine Option.eq_none_iff_forall_ne_some.2 fun a ha => ?_
  obtain ⟨ha, hne⟩ := D.get?.1 (hold ha)
  exact hne (Option.some.inj (ha.symm.trans hb))

/-- While the actions leave nothing overdue, no more fires than waited before. -/
theorem length_of_shots (W : base.network.WellFormed) (hclock : settings.clock = .manual)
    (hrules : base.rules = [rule]) (hnoLoop : rule.noLoop = true)
    (h : Shots limit fired s shots last) (hs : Reached base settings s)
    (hundue : ∀ {shots last}, Shots limit fired s shots last → last.Undue) :
    last.agenda.pending.length + shots.length ≤ s.agenda.pending.length := by
  induction h with
  | nil => exact Nat.le_refl _
  | @cons fired s last a agenda shots hgo hp h ih =>
    -- nothing is overdue, so that the synchronisation makes nothing that waits
    have hsettled := hs.synchronize_eq W hclock (hundue (.nil _ _))
    have hready := hs.step (.synchronize s)
    have hless := length_of_shot W hrules hnoLoop ⟨s.synchronize, a, agenda⟩ hready hp
    have hrest := ih (hready.fire hp) fun h' => hundue (.cons hgo hp h')
    rw [hsettled] at hless
    rw [List.length_cons]
    rw [hsettled] at hrest
    dsimp only at hless
    omega

/-- If the only rule does not loop and no action of a firing cycle leaves anything overdue, the cycle
    ends, and no more has fired than waited right after the cycle was opened. -/
theorem ends_of_noLoop {declarations : Declarations} (hb : declarations.build = .ok base)
    (hs : Reached base settings s) (hclock : settings.clock = .manual) (hrules : base.rules = [rule])
    (hnoLoop : rule.noLoop = true) (limit : Option Nat)
    (hundue : ∀ {shots last}, Shots limit 0 { s.synchronize with halted := false } shots last →
      last.Undue) : ∃ answer t,
    (∀ steps, s.synchronize.agenda.pending.length < steps →
      ∃ outcome, s.fireWithin steps limit = (outcome, t) ∧ outcome.answer? = some answer) ∧
    (s.synchronize.agenda.pending.length < endless → s.fireAll limit = (answer, t)) ∧
    (∀ count, answer = .ok count → count ≤ s.synchronize.agenda.pending.length) ∧
    t.agenda.counts.fired ≤ s.agenda.counts.fired + s.synchronize.agenda.pending.length := by
  have W := Declarations.wellFormed_build hb
  obtain ⟨most, hmost⟩ : ∃ n, s.synchronize.agenda.pending.length = n := ⟨_, rfl⟩
  obtain ⟨start, hstart⟩ : ∃ start, { s.synchronize with halted := false } = start := ⟨_, rfl⟩
  have hopened : Reached base settings start :=
    hstart ▸ (hs.step (.synchronize s)).step (.halt _ false)
  have hwaits : start.agenda.pending.length = most := by rw [← hmost, ← hstart]
  rw [hstart] at hundue
  rw [hmost]
  obtain ⟨shots, last, hshots, hending⟩ := ending_cycle limit (most + 1) 0 start
  have hlength := length_of_shots W hclock hrules hnoLoop hshots hopened hundue
  rw [hwaits] at hlength
  obtain ⟨⟨outcome, u⟩, hcycle⟩ : ∃ r, cycle limit (most + 1) 0 start = r := ⟨_, rfl⟩
  rw [hcycle] at hending
  have hended : ∀ count, outcome ≠ .unfinished count := by
    rintro count rfl
    have hsteps := steps_of_unfinished (congrArg Prod.fst hcycle)
    cases hending
    omega
  obtain ⟨answer, hanswer⟩ := FireOutcome.answer?_of_ne hended
  have hfires : ∀ steps, most < steps →
      s.fireWithin steps limit = (outcome, { u.unlock with halted := false }) := fun steps hlt => by
    have hmore := cycle_of_le hcycle hended (Nat.succ_le_of_lt hlt)
    rw [← hstart] at hmore
    exact fireWithin_of_cycle hmore
  refine ⟨answer, _, fun steps hlt => ⟨outcome, hfires steps hlt, hanswer⟩,
    fun hlt => fireAll_of_fireWithin (hfires _ hlt) hanswer, ?_, ?_⟩
  · rintro count rfl
    obtain rfl := hshots.counted (by rw [← hstart]) hending hanswer
    omega
  · have hfired : u.agenda.counts.fired = last.agenda.counts.fired := by
      cases hending with
      | idle => exact last.onto_synchronize.agenda.fired
      | stopped => rfl
      | failed => rfl
      | unfinished => exact absurd rfl (hended _)
    show u.agenda.counts.fired ≤ _
    rw [hfired, hshots.countsFired W hopened, ← hstart]
    show s.synchronize.agenda.counts.fired + _ ≤ _
    rw [s.onto_synchronize.agenda.fired]
    omega

/-- Each note is answered by another one, and answers are not answered. -/
def replies : Declarations where
  types := [⟨"note", [("id", .integer)], .fact, none, none⟩]
  rules := [⟨"reply", 0, mainGroup, true, false, false, .pattern ⟨"note", none, [], [], none⟩,
    fun _ => .insert ⟨"note", [("id", .integer 0)]⟩ fun _ => .done⟩]
  queries := []

/-- Two notes wait for an answer. -/
def repliesRun (base : RuleBase) : Session :=
  ((start base { Settings.standard with clock := .manual } 0).change
    (.insert ⟨"note", [("id", .integer 1)]⟩)).change (.insert ⟨"note", [("id", .integer 2)]⟩)

/-- Notes have no deadline. -/
theorem undue_replies
    (htypes : base.types = [("note", ⟨"note", [("id", .integer)], .fact, none, none⟩)]) (hbase : s.base = base) : s.Undue := by
  intro h d hd
  unfold deadline? RuleBase.type? at hd
  rw [hbase, htypes] at hd
  obtain ⟨entry, -, hd⟩ := Option.bind_eq_some_iff.1 hd
  obtain ⟨type, htype, hd⟩ := Option.bind_eq_some_iff.1 hd
  rw [Entries.find?_cons] at htype
  split at htype
  · cases htype
    cases hd
  · cases htype

/-- Each note is answered once, though every answer is a note. -/
theorem ends_of_noLoop_repliesRun : ∃ base rule, replies.build = .ok base ∧
    Reached base { Settings.standard with clock := .manual } (repliesRun base) ∧
    base.rules = [rule] ∧ rule.noLoop = true ∧
    (∀ {shots last}, Shots none 0 { (repliesRun base).synchronize with halted := false } shots last →
      last.Undue) ∧
    (repliesRun base).synchronize.agenda.pending.length = 2 ∧
    ∃ t, (repliesRun base).fireAll none = (.ok 2, t) := by
  obtain ⟨base, hb, hrun⟩ := Declarations.build_of_passes replies (fun base =>
    decide (base.types = [("note", ⟨"note", [("id", .integer)], .fact, none, none⟩)]) &&
      decide ((repliesRun base).synchronize.agenda.pending.length = 2) &&
      (repliesRun base).firesListed 3 none fun outcome _ => decide (outcome = .finished 2))
    (by decide +kernel)
  simp only [Bool.and_eq_true, decide_eq_true_eq] at hrun
  obtain ⟨⟨htypes, hwaits⟩, hfires⟩ := hrun
  have hs : Reached base { Settings.standard with clock := .manual } (repliesRun base) :=
    ((Reached.start 0).change _).change _
  have W := Declarations.wellFormed_build hb
  have hrules : base.rules = replies.rules := by rw [(Declarations.build_eq hb).2]
  have hundue : ∀ {shots last}, Shots none 0 { (repliesRun base).synchronize with halted := false }
      shots last → last.Undue := fun h =>
    undue_replies htypes ((h.reached ((hs.step (.synchronize _)).step (.halt _ false))).1.steady W).2.1
  obtain ⟨answer, t, hsteps, hall, -, -⟩ := ends_of_noLoop hb hs rfl hrules rfl none hundue
  obtain ⟨outcome, u, hfire, houtcome⟩ := fireWithin_of_firesListed hfires
  obtain rfl := of_decide_eq_true houtcome
  obtain ⟨outcome, hfire', hanswer⟩ := hsteps 3 (by rw [hwaits]; decide)
  cases hfire.symm.trans hfire'
  cases hanswer
  exact ⟨base, _, hb, hs, hrules, rfl, hundue, hwaits, t, hall (by rw [hwaits]; decide)⟩

/-- A lamp is lit by a spark that is overdue when it comes. -/
def lamps : Declarations where
  types := [⟨"lamp", [("id", .integer)], .fact, none, none⟩,
    ⟨"spark", [("at", .integer)], .event, some "at", some (.ofMillis 100)⟩]
  rules := [⟨"light", 0, mainGroup, true, false, false,
    .all [.pattern ⟨"lamp", none, [], [], none⟩, .absent (.pattern ⟨"spark", none, [], [], none⟩)],
    fun _ => .insert ⟨"spark", [("at", .integer 0)]⟩ fun _ => .done⟩]
  queries := []

/-- One lamp waits to be lit. -/
def lampRun (base : RuleBase) : Session :=
  (start base { Settings.standard with clock := .manual, clockStart := 1000 } 0).change
    (.insert ⟨"lamp", [("id", .integer 1)]⟩)

/-- The spark goes between two firings, when no action is running, and the lamp is lit again. -/
theorem lampRun_again : ∃ base rule, lamps.build = .ok base ∧
    Reached base { Settings.standard with clock := .manual, clockStart := 1000 } (lampRun base) ∧
    base.rules = [rule] ∧ rule.noLoop = true ∧
    (lampRun base).synchronize.agenda.pending.length = 1 ∧
    ¬ ∀ limit count t, (lampRun base).fireAll limit = (.ok count, t) →
      count ≤ (lampRun base).synchronize.agenda.pending.length := by
  obtain ⟨base, hb, hrun⟩ := Declarations.build_of_passes lamps (fun base =>
    decide ((lampRun base).synchronize.agenda.pending.length = 1) &&
      (lampRun base).firesListed 4 (some 3) fun outcome _ => decide (outcome = .finished 3))
    (by decide +kernel)
  rw [Bool.and_eq_true, decide_eq_true_eq] at hrun
  obtain ⟨hwaits, hfires⟩ := hrun
  obtain ⟨outcome, t, hfire, houtcome⟩ := fireWithin_of_firesListed hfires
  obtain rfl := of_decide_eq_true houtcome
  have hrules : base.rules = lamps.rules := by rw [(Declarations.build_eq hb).2]
  refine ⟨base, _, hb, (Reached.start 0).change _, hrules, rfl, hwaits, fun hall => ?_⟩
  have hthree := hall (some 3) 3 t
    (fireAll_of_fireWithin (fireWithin_of_le hfire nofun (by decide)) rfl)
  omega

end Session

end RuleNet
