/-
  Which new matches become no activations.

  A new match is refused where its rule does not loop and its own action is running, and where its rule
  does not react while its group is active and the group is held: something of it was taken since it got
  the focus, and the agenda has not been unlocked since.

  * `Session.Underway`: a session on its way, what was done to its agenda so far, and the events that the
    agenda does not know yet.
  * `Session.Underway.sound`: the agenda is what was done to it, and every event is of some rule.
  * `Session.Underway.serve`: whatever a session is asked, it goes on its way.
  * `Session.suppression_exact`: just the new matches that are to be refused are refused.
-/
import RuleNet.Proofs.Lock
import RuleNet.Proofs.Network.Carried
import RuleNet.Proofs.Session.Changes
import RuleNet.Proofs.Session.Cycle
import RuleNet.Proofs.Session.Recounts

namespace RuleNet.Session

open Agenda (Act)

/-! ## On the way -/

/-- What is done to the agenda where a match reaches a terminal. -/
def actsOn (s : Session) (τ : TerminalId) (token : TokenId) : List Act :=
  match s.network.terminal? τ with
  | none => []
  | some terminal => match s.base.rules[terminal.rule]? with
    | none => []
    | some rule =>
      if s.isSuppressed terminal.rule rule then [.recordSuppressed]
      else
        .create terminal.rule τ token rule.salience rule.group
            (s.matching.binding s.store terminal.scope token) ::
          if rule.autoFocus then [.setFocus rule.group] else []

theorem agenda_activate (s : Session) (τ : TerminalId) (token : TokenId) :
    (s.activate τ token).agenda = s.agenda.run (s.actsOn τ token) := by
  rcases s.activate_cases τ token with ⟨hno, heq⟩ | ⟨terminal, rule, hτ, hrule, ⟨hsup, heq⟩ | ⟨hsup, heq⟩⟩
  · have hacts : s.actsOn τ token = [] := by
      unfold actsOn
      cases hτ : s.network.terminal? τ with
      | none => rfl
      | some terminal => simp only [hno terminal hτ]
    rw [heq, hacts]
    rfl
  · have hacts : s.actsOn τ token = [.recordSuppressed] := by
      simp only [actsOn, hτ, hrule, hsup, if_true]
    rw [heq, hacts]
    rfl
  · rw [heq]
    simp only [actsOn, hτ, hrule, hsup, Bool.false_eq_true, if_false]
    show s.enlisted τ token terminal rule = _
    unfold enlisted
    dsimp only
    cases rule.autoFocus <;> rfl

theorem agenda_deactivate (s : Session) (τ : TerminalId) (token : TokenId) :
    (s.deactivate τ token).agenda = s.agenda.run [.cancel τ token] := by
  unfold deactivate
  dsimp only
  split <;> rfl

/-- A session on its way since its start: the activation whose action is running, what was done to the
    agenda so far, and the events that the agenda does not know yet. -/
inductive Underway (base : RuleBase) (settings : Settings) :
    Session → Option Activation → List Act → List MatchEvent → Prop
  | start (reading : Moment) : Underway base settings (opening base settings reading).taken none []
      (opening base settings reading).matching.events.toList
  | alter {s mid s' r acts} (h : Underway base settings s r acts []) (ha : s.Alters mid s') :
    Underway base settings s'.taken r acts s'.matching.events.toList
  | formed {s r acts τ token due} (h : Underway base settings s r acts (.formed τ token :: due)) :
    Underway base settings (s.activate τ token) r (acts ++ s.actsOn τ token) due
  | broken {s r acts τ token due} (h : Underway base settings s r acts (.broken τ token :: due)) :
    Underway base settings (s.deactivate τ token) r (acts ++ [.cancel τ token]) due
  | setFocus {s r acts} (h : Underway base settings s r acts []) (group : String) :
    Underway base settings (s.setFocus group) r (acts ++ [.setFocus group]) []
  | popFocus {s r acts} (h : Underway base settings s r acts []) :
    Underway base settings s.popFocus.2 r (acts ++ [.popFocus]) []
  | clearGroup {s r acts} (h : Underway base settings s r acts []) (group : String) :
    Underway base settings (s.clearGroup group).2 r (acts ++ [.clearGroup group]) []
  | unlock {s r acts} (h : Underway base settings s r acts []) :
    Underway base settings { s with agenda := s.agenda.unlock } r (acts ++ [.unlock]) []
  | beside {s r acts} (h : Underway base settings s r acts []) (clock : Clock)
    (expiry : ExpirySchedule) (globals : Entries Global) (halted : Bool) :
    Underway base settings { s with clock, expiry, globals, halted } r acts []
  | begin {s acts a agenda} (h : Underway base settings s none acts [])
    (hp : s.agenda.popNext = some (a, agenda)) :
    Underway base settings
      { ({ s with agenda } : Session).tell (.firing a) with firing := some a.rule } (some a)
      (acts ++ [.popNext]) []
  | finish {s a acts} (h : Underway base settings s (some a) acts []) (event : JournalEvent)
    (he : event = .fired a ∨ ∃ error, event = .failed a error) :
    Underway base settings (({ s with firing := none } : Session).tell event) none acts []

variable {base : RuleBase} {settings : Settings} {s s' t : Session} {r : Option Activation}
  {acts : List Act} {due : List MatchEvent} {τ : TerminalId} {token : TokenId}

namespace Underway

/-- What is known of a session on its way. -/
structure Sound (base : RuleBase) (settings : Settings) (s : Session) (r : Option Activation)
    (acts : List Act) (due : List MatchEvent) : Prop where
  rules : s.base = base
  /-- The agenda is what was done to it. -/
  agenda : s.agenda = (Agenda.empty settings.conflictStrategy).run acts
  /-- The mark is that of the rule whose action is running. -/
  firing : s.firing = r.map Activation.rule
  /-- Matches have come to terminals that there are. -/
  known : ∀ {τ token}, .formed τ token ∈ due → ∃ terminal, base.network.terminal? τ = some terminal
  /-- The session is steady once the agenda knows all events. -/
  steady : (due.foldl applyEvent s).Steady

/-- An act of the agenda keeps what is known. -/
theorem Sound.act (S : Sound base settings s r acts []) (act : Act) (A : s.Step t)
    (W : base.network.WellFormed) (hagenda : t.agenda = s.agenda.after act) (hfiring : t.firing = s.firing) :
    Sound base settings t r (acts ++ [act]) [] where
  rules := by
    have ho := A.onward S.steady (by rw [network, S.rules]; exact W)
    exact ho.base.trans S.rules
  agenda := by
    rw [hagenda, S.agenda, Agenda.run_append]
    rfl
  firing := hfiring.trans S.firing
  known h := absurd h List.not_mem_nil
  steady := (A.onward S.steady (by rw [network, S.rules]; exact W)).steady

/-- What is told to have come to a terminal has come to one that there is. -/
theorem known_of_course (W : base.network.WellFormed) {m m' : Matching}
    (h : Matching.Course base.network m m')
    (hm : ∀ {τ token}, .formed τ token ∈ m.events.toList →
      ∃ terminal, base.network.terminal? τ = some terminal)
    (hτ : .formed τ token ∈ m'.events.toList) :
    ∃ terminal, base.network.terminal? τ = some terminal := by
  rcases h.formed hτ with hold | ⟨n, _, _, hn, -⟩
  · exact hm hold
  · obtain ⟨terminal, hterminal, -⟩ := W.terminals.1 hn
    exact ⟨terminal, hterminal⟩

/-- What is known of every session on its way. -/
theorem sound (W : base.network.WellFormed) (h : Underway base settings s r acts due) :
    Sound base settings s r acts due := by
  induction h with
  | start reading =>
    have C := Matching.carries_course base.network
    refine ⟨rfl, rfl, rfl, fun hτ => ?_, (steady_start W settings reading).1⟩
    refine known_of_course W
      (C.foldl (fun m n => C.activateLeft (.empty settings.identityMode) n rootToken m) _ _)
      (fun {τ token} hroot => ?_) hτ
    have hevents : (#[].appendList
          (base.network.rootTerminals.map fun τ => MatchEvent.formed τ rootToken)).toList =
        [] ++ base.network.rootTerminals.map fun τ => MatchEvent.formed τ rootToken :=
      Array.toList_appendList
    have hroot : MatchEvent.formed τ token ∈
        [] ++ base.network.rootTerminals.map fun τ => MatchEvent.formed τ rootToken := hevents ▸ hroot
    obtain ⟨τ', hτ', heq⟩ := List.mem_map.1 hroot
    cases heq
    obtain ⟨terminal, hterminal, -⟩ := W.rootTerminals.1 hτ'
    exact ⟨terminal, hterminal⟩
  | @alter s mid s' r acts _ ha S =>
    obtain ⟨hbase, -, hagenda, hfiring, -⟩ := ha.aside
    have hs : s.Steady := S.steady
    have hnet : s.network = base.network := by rw [network, S.rules]
    refine ⟨hbase.trans S.rules, hagenda.trans S.agenda, hfiring.trans S.firing, fun hτ => ?_,
      (hs.applyEvents (hnet ▸ W) (ha.unapplied hs (hnet ▸ W))).steady⟩
    refine known_of_course W (hnet ▸ ha.hither.trans ha.onward) (fun hold => ?_) hτ
    rw [hs.told] at hold
    cases hold
  | @formed s r acts τ token due _ S =>
    have A := aligned_activate s τ token
    refine ⟨A.base.trans S.rules, ?_, A.firing.trans S.firing,
      fun hτ => S.known (List.mem_cons_of_mem _ hτ), S.steady⟩
    rw [agenda_activate, S.agenda, Agenda.run_append]
  | @broken s r acts τ token due _ S =>
    have A := aligned_deactivate s τ token
    refine ⟨A.base.trans S.rules, ?_, A.firing.trans S.firing,
      fun hτ => S.known (List.mem_cons_of_mem _ hτ), S.steady⟩
    rw [agenda_deactivate, S.agenda, Agenda.run_append]
  | setFocus _ group S => exact S.act _ (.setFocus _ group) W rfl rfl
  | popFocus _ S => exact S.act _ (.popFocus _) W rfl rfl
  | clearGroup _ group S =>
    exact S.act _ (.clearGroup _ group) W (by rw [clearGroup_eq]; rfl) (by rw [clearGroup_eq])
  | unlock _ S => exact S.act _ (.unlock _) W rfl rfl
  | @beside s r acts _ clock expiry globals halted S =>
    have ho : s.Onward { s with clock, expiry, globals, halted } :=
      Steady.same S.steady rfl rfl rfl rfl rfl
    exact ⟨S.rules, S.agenda, S.firing, (absurd · List.not_mem_nil), ho.steady⟩
  | @begin s acts a agenda _ hp S =>
    have ho := (Step.begin s a agenda hp).onward S.steady (by rw [network, S.rules]; exact W)
    refine ⟨S.rules, ?_, rfl, (absurd · List.not_mem_nil), ho.steady⟩
    rw [Agenda.run_append, ← S.agenda]
    show agenda = s.agenda.after .popNext
    rw [Agenda.after, hp]
  | @finish s a acts _ event _ S =>
    exact ⟨S.rules, S.agenda, rfl, (absurd · List.not_mem_nil),
      ((Step.finish s none event).onward S.steady (by rw [network, S.rules]; exact W)).steady⟩

/-! ## Going on -/

/-- The agenda gets to know all events. -/
theorem told (h : Underway base settings s r acts due) :
    ∃ more, Underway base settings (due.foldl applyEvent s) r (acts ++ more) [] := by
  induction due generalizing s acts with
  | nil => exact ⟨[], by rw [List.append_nil]; exact h⟩
  | cons event rest ih =>
    cases event with
    | formed τ token =>
      obtain ⟨more, hmore⟩ := ih h.formed
      exact ⟨s.actsOn τ token ++ more, by rw [← List.append_assoc]; exact hmore⟩
    | broken τ token =>
      obtain ⟨more, hmore⟩ := ih h.broken
      exact ⟨.cancel τ token :: more, by rw [List.append_cons]; exact hmore⟩

/-- A session goes on its way to become another one. -/
def Goes (base : RuleBase) (settings : Settings) (r r' : Option Activation) (s t : Session) : Prop :=
  ∀ acts, Underway base settings s r acts [] →
    ∃ more, Underway base settings t r' (acts ++ more) []

variable {r' r'' : Option Activation}

theorem Goes.refl (s : Session) : Goes base settings r r s s := fun acts h =>
  ⟨[], by rw [List.append_nil]; exact h⟩

theorem Goes.trans {u : Session} (h : Goes base settings r r' s t) (h' : Goes base settings r' r'' t u) :
    Goes base settings r r'' s u := fun acts hs => by
  obtain ⟨more, ht⟩ := h acts hs
  obtain ⟨rest, hu⟩ := h' _ ht
  exact ⟨more ++ rest, by rw [← List.append_assoc]; exact hu⟩

theorem goes_beside (s : Session) (clock : Clock) (expiry : ExpirySchedule) (globals : Entries Global)
    (halted : Bool) : Goes base settings r r s { s with clock, expiry, globals, halted } :=
  fun acts h => ⟨[], by rw [List.append_nil]; exact h.beside clock expiry globals halted⟩

theorem conveys (base : RuleBase) (settings : Settings) (r : Option Activation) :
    Conveys (Goes base settings r r) :=
  conveys_alters .refl .trans (fun s clock expiry => goes_beside s clock expiry s.globals s.halted)
    fun _ _ ha _ h => (h.alter ha).told

variable (W : base.network.WellFormed)
include W

theorem goes_change (s : Session) (c : Change) : Goes base settings r r s (s.change c) := fun acts h => by
  have S := h.sound W
  have hs : s.Steady := S.steady
  exact (conveys base settings r).change hs (by rw [network, S.rules]; exact W) c acts h

theorem goes_synchronize (s : Session) : Goes base settings r r s s.synchronize := fun acts h => by
  have S := h.sound W
  have hs : s.Steady := S.steady
  exact (conveys base settings r).synchronize hs (by rw [network, S.rules]; exact W) acts h

theorem goes_perform (action : Action) (s : Session) :
    Goes base settings r r s (Session.perform action s).2 := by
  have O : Obeys (Goes base settings r r) := by
    refine ⟨.refl, .trans, goes_change W, fun s group acts h => ⟨_, h.setFocus group⟩,
      fun s acts h => ⟨_, h.popFocus⟩, fun s group acts h => ⟨_, h.clearGroup group⟩, ?_, ?_⟩
    · exact fun s => goes_beside s s.clock s.expiry s.globals true
    · exact fun s globals => goes_beside s s.clock s.expiry globals s.halted
  exact O.perform action s

/-- A firing begins, runs its action, and ends. -/
theorem goes_fire {a : Activation} {agenda : Agenda} (hp : s.agenda.popNext = some (a, agenda)) :
    Goes base settings none none s (({ s with agenda } : Session).fire a).2 := fun acts h => by
  obtain ⟨more, hrun⟩ := goes_perform W (({ s with agenda } : Session).actionOf a) _ _ (h.begin hp)
  have hidle : s.firing = none := (h.sound W).firing
  refine ⟨.popNext :: more, ?_⟩
  rw [List.append_cons]
  unfold Session.fire
  dsimp only
  split
  · exact hidle ▸ hrun.finish _ (.inl rfl)
  · exact hidle ▸ hrun.finish _ (.inr ⟨_, rfl⟩)

theorem goes_shots {limit : Option Nat} {fired : Nat} {shots : List Shot}
    (h : Shots limit fired s shots t) : Goes base settings none none s t := by
  induction h with
  | nil => exact .refl _
  | cons _ hp _ ih => exact (goes_synchronize W _).trans ((goes_fire W hp).trans ih)

/-- A firing cycle goes on its way. -/
theorem goes_fireWithin (s : Session) (steps : Nat) (limit : Option Nat) :
    Goes base settings none none s (s.fireWithin steps limit).2 := by
  obtain ⟨row, last, u, hshots, hending, ht⟩ := s.ending_fireWithin steps limit
  have hhalt : ∀ (s : Session) halted, Goes base settings none none s { s with halted } :=
    fun s halted => goes_beside s s.clock s.expiry s.globals halted
  have hlast : Goes base settings none none s last :=
    (goes_synchronize W s).trans ((hhalt _ false).trans (goes_shots W hshots))
  have hu : Goes base settings none none s u := by
    generalize (s.fireWithin steps limit).1 = outcome at hending
    cases hending with
    | idle => exact hlast.trans (goes_synchronize W last)
    | stopped => exact hlast
    | failed => exact hlast
    | unfinished => exact hlast
  have hunlock : Goes base settings none none u u.unlock := fun acts h => ⟨_, h.unlock⟩
  rw [ht]
  exact hu.trans (hunlock.trans (hhalt _ false))

/-- Whatever a session is asked, it goes on its way. -/
theorem goes_serve (s : Session) (request : Request) :
    Goes base settings none none s (s.serve request).2 := by
  rcases s.serve_cases request with hs | ⟨c, hs⟩ | ⟨limit, hs⟩ | ⟨group, hs⟩ | hs <;> rw [hs]
  · exact .refl s
  · exact goes_change W s c
  · exact goes_fireWithin W s endless limit
  · exact fun acts h => ⟨_, h.setFocus group⟩
  · exact fun acts h => ⟨_, h.popFocus⟩

end Underway

/-! ## Verdicts -/

/-- A new match of a rule is to be refused: the rule does not loop and its own action is running, or it
    does not react while its group is active and its group is held. -/
def Refused (settings : Settings) (r : Option Activation) (acts : List Act) (place : Nat) (rule : Rule) :
    Prop :=
  (rule.noLoop = true ∧ ∃ a, r = some a ∧ a.rule = place) ∨
    (rule.lockOnActive = true ∧ Agenda.Held settings.conflictStrategy acts rule.group)

/-- What comes of a new match: nothing but a count just if it is refused, and else one new activation. -/
structure Judged (s t : Session) (τ : TerminalId) (token : TokenId) (terminal : Terminal) (rule : Rule)
    (refused : Prop) : Prop where
  created : t.agenda.counts.created = s.agenda.counts.created ↔ refused
  /-- One more match is counted as suppressed, and everything else is what it was. -/
  suppressed : refused →
    t.agenda.counts.suppressed = s.agenda.counts.suppressed + 1 ∧
    t.agenda.counts = { s.agenda.counts with suppressed := t.agenda.counts.suppressed } ∧
    t = { s with agenda := { s.agenda with counts := t.agenda.counts } }
  /-- The activation has a number of its own, waits, and is told of. -/
  enlisted : ¬ refused → ∃ a : Activation, a.id = s.agenda.nextId ∧ a.rule = terminal.rule ∧
    a.terminal = τ ∧ a.token = token ∧ a.group = rule.group ∧ a.state = .pending ∧
    t.journal = s.journal.push (.created a) ∧
    t.agenda.get? = (fun i => if i = a.id then some a else s.agenda.get? i) ∧
    t.agenda.counts = { s.agenda.counts with created := s.agenda.counts.created + 1 }

/-- What the session checks is that. -/
theorem Underway.refused_iff (W : base.network.WellFormed) (h : Underway base settings s r acts due)
    (place : Nat) (rule : Rule) :
    s.isSuppressed place rule = true ↔ Refused settings r acts place rule := by
  have S := h.sound W
  unfold isSuppressed Refused
  rw [Bool.or_eq_true, Bool.and_eq_true, Bool.and_eq_true, S.firing, S.agenda,
    Agenda.isLocked_iff_held, beq_iff_eq, Option.map_eq_some_iff]

theorem Underway.judged {declarations : Declarations} (hb : declarations.build = .ok base)
    (h : Underway base settings s r acts (.formed τ token :: due)) :
    ∃ terminal rule, base.network.terminal? τ = some terminal ∧
      base.rules[terminal.rule]? = some rule ∧
      s.Judged (s.activate τ token) τ token terminal rule (Refused settings r acts terminal.rule rule) := by
  have W := Declarations.wellFormed_build hb
  have S := h.sound W
  obtain ⟨terminal, hτ⟩ := S.known List.mem_cons_self
  obtain ⟨branch, ⟨rule, branches, hrule, -⟩, -⟩ := (Declarations.carries_build hb).drawn hτ
  refine ⟨terminal, rule, hτ, hrule, ?_⟩
  have heq := activate_eq (s := s) (by rw [network, S.rules]; exact hτ) (by rw [S.rules]; exact hrule) token
  rw [← h.refused_iff W]
  have hcounts : (s.enlisted τ token terminal rule).counts =
      { s.agenda.counts with created := s.agenda.counts.created + 1 } := by
    unfold Session.enlisted Agenda.setFocus
    dsimp only
    split
    · split <;> rfl
    · rfl
  cases hsup : s.isSuppressed terminal.rule rule with
  | true =>
    rw [hsup, if_pos rfl] at heq
    refine ⟨by rw [heq]; exact iff_of_true rfl rfl, fun _ => ?_, fun hno => absurd rfl hno⟩
    rw [heq]
    exact ⟨rfl, rfl, rfl⟩
  | false =>
    rw [hsup, if_neg Bool.false_ne_true] at heq
    refine ⟨?_, (absurd · Bool.false_ne_true),
      fun _ => ⟨s.candidate τ token terminal rule, rfl, rfl, rfl, rfl, rfl, rfl, ?_, ?_, ?_⟩⟩
    · rw [heq]
      show (s.enlisted τ token terminal rule).counts.created = _ ↔ _
      rw [hcounts]
      exact iff_of_false (Nat.succ_ne_self _) Bool.false_ne_true
    · rw [heq]
      rfl
    · rw [heq]
      exact s.get?_enlisted τ token terminal rule
    · rw [heq]
      exact hcounts

/-- Suppression is exact. Whatever is done to an agenda, a group is locked just if it is held. And whenever
    the agenda of a session is told of a new match, be it in the middle of a change, of an action or of a
    cycle, the match becomes no activation just if it is to be refused. -/
theorem suppression_exact {declarations : Declarations} (hb : declarations.build = .ok base)
    (settings : Settings) :
    (∀ strategy acts group, ((Agenda.empty strategy).run acts).isLocked group = true ↔
      Agenda.Held strategy acts group) ∧
    (∀ {s r acts τ token due}, Underway base settings s r acts (.formed τ token :: due) →
      ∃ terminal rule, base.network.terminal? τ = some terminal ∧
        base.rules[terminal.rule]? = some rule ∧
        s.Judged (s.activate τ token) τ token terminal rule
          (Refused settings r acts terminal.rule rule)) ∧
    (∀ reading, ∃ acts, Underway base settings (start base settings reading) none acts []) ∧
    (∀ {s acts}, Underway base settings s none acts [] → ∀ request,
      ∃ more, Underway base settings (s.serve request).2 none (acts ++ more) []) ∧
    ∀ {s r acts}, Underway base settings s r acts [] → ∀ action,
      ∃ more, Underway base settings (perform action s).2 r (acts ++ more) [] := by
  have W := Declarations.wellFormed_build hb
  exact ⟨Agenda.isLocked_iff_held, Underway.judged hb, fun reading => (Underway.start reading).told,
    fun h request => Underway.goes_serve W _ request _ h, fun h action =>
      Underway.goes_perform W action _ _ h⟩

/-- Notes are answered by notes, but not while their group is active. -/
def calls : Declarations where
  types := [⟨"note", [("id", .integer)], .fact, none, none⟩]
  rules := [⟨"reply", 0, mainGroup, false, true, false, .pattern ⟨"note", none, [], [], none⟩,
    fun _ => .insert ⟨"note", [("id", .integer 0)]⟩ fun _ => .done⟩]
  queries := []

/-- A note has come. -/
def callRun (base : RuleBase) : Session :=
  (start base { Settings.standard with clock := .manual } 0).change
    (.insert ⟨"note", [("id", .integer 1)]⟩)

/-- A fact has come while the action of an activation is running. -/
def receiving (s : Session) (a : Activation) (agenda : Agenda) (fact : Fact) (type : FactType) :
    Session :=
  let store := s.store.insert fact (type.moment fact s.now)
  { s with
    store
    matching := s.matching.assert s.network store s.store.nextHandle s.now
    agenda
    expiry := s.expiry.plan type s.store.nextHandle (type.moment fact s.now)
    journal := (s.journal.push (.firing a)).push (.inserted s.store.nextHandle fact)
    firing := some a.rule }

theorem Underway.receiving {a : Activation} {agenda : Agenda} {fact : Fact} {type : FactType}
    (h : Underway base settings s none acts []) (hp : s.agenda.popListed = some (a, agenda))
    (hc : s.checkFact fact = .ok type) :
    Underway base settings (s.receiving a agenda fact type).taken (some a) (acts ++ [.popNext])
      (s.receiving a agenda fact type).matching.events.toList :=
  (h.begin ((Agenda.popNext_eq_popListed _).trans hp)).alter (.received hc rfl)

/-- The answer is a new match, but it is refused and counted. -/
theorem suppression_exact_callRun : ∃ base s a acts rule, calls.build = .ok base ∧
    Underway base { Settings.standard with clock := .manual } s (some a) acts [.formed 0 2] ∧
    base.rules = [rule] ∧
    Refused { Settings.standard with clock := .manual } (some a) acts 0 rule ∧
    (s.activate 0 2).agenda.counts.suppressed = s.agenda.counts.suppressed + 1 := by
  obtain ⟨base, hb, hrun⟩ := Declarations.build_of_passes calls (fun base =>
    (callRun base).agenda.popListed.any fun taken =>
      ((callRun base).checkFact ⟨"note", [("id", .integer 0)]⟩).toOption.any fun type =>
        let s := (callRun base).receiving taken.1 taken.2 ⟨"note", [("id", .integer 0)]⟩ type
        decide (s.matching.events.toList = [.formed 0 2]) &&
          decide ((s.taken.activate 0 2).agenda.counts.created = s.agenda.counts.created) &&
          decide ((base.network.terminal? 0).map Terminal.rule = some 0)) (by decide +kernel)
  obtain ⟨⟨a, agenda⟩, hp, hrun⟩ := (Option.any_eq_true _ _).1 hrun
  obtain ⟨type, htype, hrun⟩ := (Option.any_eq_true _ _).1 hrun
  have hc : (callRun base).checkFact ⟨"note", [("id", .integer 0)]⟩ = .ok type := by
    cases hcheck : (callRun base).checkFact ⟨"note", [("id", .integer 0)]⟩ <;> rw [hcheck] at htype <;>
      cases htype
    rfl
  simp only [Bool.and_eq_true, decide_eq_true_eq] at hrun
  obtain ⟨⟨hevents, hcreated⟩, hplace⟩ := hrun
  obtain ⟨-, hjudged, hstart, hserve, -⟩ :=
    suppression_exact hb { Settings.standard with clock := .manual }
  obtain ⟨acts, hs⟩ := hstart 0
  have hinsert : ∀ (s : Session) fact, (s.serve (.insert fact)).2 = s.change (.insert fact) :=
    fun _ _ => rfl
  obtain ⟨more, hcome⟩ := hserve hs (.insert ⟨"note", [("id", .integer 1)]⟩)
  rw [hinsert] at hcome
  have hdue := Underway.receiving (s := callRun base) hcome hp hc
  rw [hevents] at hdue
  obtain ⟨terminal, rule, hτ, hrule, hverdict⟩ := hjudged hdue
  rw [hτ] at hplace
  have hzero : terminal.rule = 0 := by simpa using hplace
  rw [hzero] at hrule hverdict
  have hrules : base.rules = calls.rules := by rw [(Declarations.build_eq hb).2]
  have hrefused := hverdict.created.1 hcreated
  exact ⟨base, _, a, _, rule, hb, hdue, by rw [hrules] at hrule ⊢; cases hrule; rfl, hrefused,
    (hverdict.suppressed hrefused).1⟩

end RuleNet.Session
