/-
  Sessions between two requests.

  Every change of the matches reaches the agenda before a request returns: the events tell how the
  tokens at terminals have changed, and the agenda is brought up to date with them.

  * `Session.Current`: an activation is what would be made of its token now.
  * `Session.Steady`: nothing is amiss with the matches, and all activations are current.
  * `Matching.Proceeds`: old tokens that are still there rest on the same facts.
  * `Session.Steady.applyEvents`: a session is steady again once the events have been applied.
-/
import RuleNet.Proofs.Agenda
import RuleNet.Proofs.Matching.Update
import RuleNet.Session.Basic

namespace RuleNet

/-- Whether a result that stands may be left where another one is due: a coalesced update leaves
    one that is equal. -/
def UpdatePolicy.agree : UpdatePolicy → Option Value → Option Value → Prop
  | .stepwise, a, b => a = b
  | .coalesce, a, b => a = b ∨ (a == b) = true

theorem UpdatePolicy.agree_refl (policy : UpdatePolicy) (a : Option Value) : policy.agree a a := by
  cases policy
  · exact rfl
  · exact Or.inl rfl

/-! ## Matches that go on -/

/-- Old tokens that are still there rest on the same facts as before. -/
structure Matching.Proceeds (net : Network) (store store' : WorkingMemory) (m m' : Matching) :
    Prop where
  evolves : Evolves net .all m m'
  facts : ∀ {t o}, t < m.nextToken → m'.origin? t = some o → ∀ i ∈ (m.matchOf t).handles,
    store'.entry? i = store.entry? i

namespace Matching.Proceeds

variable {net : Network} {store store' store'' : WorkingMemory} {m m' m'' : Matching}

theorem of_evolves (h : Evolves net .all m m') : Proceeds net store store m m' :=
  ⟨h, fun _ _ _ _ => rfl⟩

theorem trans (h : Proceeds net store store' m m') (h' : Proceeds net store' store'' m' m'')
    (F : m.Forest net) (F' : m'.Forest net) : Proceeds net store store'' m m'' where
  evolves := h.evolves.trans h'.evolves
  facts {t o} hlt ho i hi := by
    have hlt' := Nat.lt_of_lt_of_le hlt h.evolves.next
    have ho' := h'.evolves.survive hlt' ho
    rw [h'.facts hlt' ho i (h.evolves.matchOf F F' ho' hlt ▸ hi), h.facts hlt ho' i hi]

/-- The variables of an old token are what they were. -/
theorem binding (W : net.WellFormed) (h : Proceeds net store store' m m') (F : m.Forest net)
    (F' : m'.Forest net) {t : TokenId} {o : Origin} (ho : m'.origin? t = some o)
    (hlt : t < m.nextToken) (scope : List (String × Place)) :
    m'.binding store' scope t = m.binding store scope t := by
  have hold := h.evolves.survive hlt ho
  rw [binding_eq W F' ho, binding_eq W F hold, h.evolves.matchOf F F' ho hlt]
  exact Match.binding_congr scope fun i hi => h.facts hlt ho i hi

end Matching.Proceeds

/-- All facts of a store fit their declared types. -/
def RuleBase.Conforms (base : RuleBase) (store : WorkingMemory) : Prop :=
  ∀ {h entry}, store.entry? h = some entry →
    ∃ type, base.type? entry.fact.type = some type ∧ type.check entry.fact = .ok ()

namespace Session

/-! ## Activations -/

/-- The rule of an activation, and what its branch binds. -/
structure Fits (s : Session) (a : Activation) (terminal : Terminal) (rule : Rule) : Prop where
  ends : s.network.terminal? a.terminal = some terminal
  place : a.rule = terminal.rule
  of : s.base.rules[a.rule]? = some rule
  salience : a.salience = rule.salience
  group : a.group = rule.group

/-- An activation is what would be made of its token now, and the token stands at its terminal. -/
def Current (s : Session) (a : Activation) : Prop :=
  ∃ terminal rule, s.Fits a terminal rule ∧ s.matching.LiveAt a.token terminal.node ∧
    a.binding = s.matching.binding s.store terminal.scope a.token

/-- Nothing is amiss with the matches of a session, its facts fit their types, and all its activations
    are current. -/
structure Steady (s : Session) : Prop where
  kept : Kept s.network s.store
    (.rest s.network (s.matching.Stands s.network) s.settings.updatePolicy.agree) s.matching
  told : s.matching.events = #[]
  direct : s.matching.deferred = none
  fresh : ∀ {h entry}, s.store.entry? h = some entry → h < s.store.nextHandle
  conforms : s.base.Conforms s.store
  agenda : s.agenda.Consistent
  current : ∀ {id a}, s.agenda.get? id = some a → s.Current a

/-! ## Events -/

/-- A session whose agenda follows the tokens at terminals: activations wait for tokens that stand
    there as far as it has been told, and are right if these stand there still. -/
structure Follows (s : Session) (told : TerminalId → TokenId → Prop) : Prop where
  agenda : s.agenda.Consistent
  told : ∀ {id a}, s.agenda.get? id = some a → told a.terminal a.token
  current : ∀ {id a}, s.agenda.get? id = some a → s.matching.Stands s.network a.terminal a.token →
    s.Current a

section
variable {s s' : Session} {told : TerminalId → TokenId → Prop}

/-- The matches of a session are the same ones under the same rules. -/
structure Aligned (s s' : Session) : Prop where
  base : s'.base = s.base
  settings : s'.settings = s.settings
  store : s'.store = s.store
  matching : s'.matching = s.matching
  clock : s'.clock = s.clock
  expiry : s'.expiry = s.expiry
  globals : s'.globals = s.globals
  firing : s'.firing = s.firing
  halted : s'.halted = s.halted

theorem Aligned.refl (s : Session) : s.Aligned s := ⟨rfl, rfl, rfl, rfl, rfl, rfl, rfl, rfl, rfl⟩

theorem Aligned.trans {s'' : Session} (h : s.Aligned s') (h' : s'.Aligned s'') : s.Aligned s'' where
  base := h'.base.trans h.base
  settings := h'.settings.trans h.settings
  store := h'.store.trans h.store
  matching := h'.matching.trans h.matching
  clock := h'.clock.trans h.clock
  expiry := h'.expiry.trans h.expiry
  globals := h'.globals.trans h.globals
  firing := h'.firing.trans h.firing
  halted := h'.halted.trans h.halted

/-- Whether an activation is current depends on the rules, the facts and the matches. -/
theorem current_congr (hb : s'.base = s.base) (hs : s'.store = s.store)
    (hm : s'.matching = s.matching) {a : Activation} : s'.Current a ↔ s.Current a := by
  obtain ⟨base, settings, store, matching, agenda, clock, expiry, globals, journal, firing, halted⟩ := s
  obtain ⟨base', settings', store', matching', agenda', clock', expiry', globals', journal', firing',
    halted'⟩ := s'
  cases hb
  cases hs
  cases hm
  constructor
  · rintro ⟨terminal, rule, hf, hrest⟩
    exact ⟨terminal, rule, ⟨hf.ends, hf.place, hf.of, hf.salience, hf.group⟩, hrest⟩
  · rintro ⟨terminal, rule, hf, hrest⟩
    exact ⟨terminal, rule, ⟨hf.ends, hf.place, hf.of, hf.salience, hf.group⟩, hrest⟩

theorem Aligned.current_iff (h : s.Aligned s') {a : Activation} : s'.Current a ↔ s.Current a :=
  current_congr h.base h.store h.matching

theorem current_agenda (s : Session) (agenda : Agenda) {a : Activation} :
    ({ s with agenda } : Session).Current a ↔ s.Current a :=
  @current_congr s { s with agenda } rfl rfl rfl a

/-- The agenda may change where it belongs to no activation. -/
theorem Follows.congr (h : s.Follows told) (A : s.Aligned s') (hc : s'.agenda.Consistent)
    (hget : s'.agenda.get? = s.agenda.get?) : s'.Follows told := by
  have hstands : s'.matching.Stands s'.network = s.matching.Stands s.network := by
    rw [A.matching, network, A.base]
  refine ⟨hc, fun ha => h.told (hget ▸ ha), fun ha hs => A.current_iff.2 (h.current (hget ▸ ha) ?_)⟩
  rw [← hstands]
  exact hs

theorem aligned_activate (s : Session) (τ : TerminalId) (t : TokenId) :
    s.Aligned (s.activate τ t) := by
  unfold activate
  split
  · exact .refl s
  · split
    · exact .refl s
    · split
      · exact ⟨rfl, rfl, rfl, rfl, rfl, rfl, rfl, rfl, rfl⟩
      · dsimp only
        split <;> exact ⟨rfl, rfl, rfl, rfl, rfl, rfl, rfl, rfl, rfl⟩

theorem aligned_deactivate (s : Session) (τ : TerminalId) (t : TokenId) :
    s.Aligned (s.deactivate τ t) := by
  unfold deactivate
  dsimp only
  split <;> exact ⟨rfl, rfl, rfl, rfl, rfl, rfl, rfl, rfl, rfl⟩

/-- A token comes to a terminal. -/
theorem Follows.activate (h : s.Follows told) {τ : TerminalId} {t : TokenId} (hnew : ¬ told τ t) :
    (s.activate τ t).Follows fun τ' t' => told τ' t' ∨ (τ' = τ ∧ t' = t) := by
  have hmore : s.Follows fun τ' t' => told τ' t' ∨ (τ' = τ ∧ t' = t) :=
    ⟨h.agenda, fun ha => Or.inl (h.told ha), h.current⟩
  unfold Session.activate
  split
  · exact hmore
  · next terminal hterminal =>
    split
    · exact hmore
    · next rule hrule =>
      split
      · exact hmore.congr ⟨rfl, rfl, rfl, rfl, rfl, rfl, rfl, rfl, rfl⟩
          (hmore.agenda.congr rfl rfl rfl rfl rfl) rfl
      · obtain ⟨agenda, hagenda⟩ : ∃ agenda, s.agenda.create terminal.rule τ t rule.salience
            rule.group (s.matching.binding s.store terminal.scope t) = agenda := ⟨_, rfl⟩
        have hfree : s.agenda.byToken[(τ, t)]? = none := by
          cases hby : s.agenda.byToken[(τ, t)]? with
          | none => rfl
          | some id =>
            obtain ⟨a, ha, hkey⟩ := h.agenda.byToken.1 hby
            rw [Prod.mk.injEq] at hkey
            exact absurd (hkey.1 ▸ hkey.2 ▸ h.told ha) hnew
        have hcons : agenda.Consistent := hagenda ▸ h.agenda.create hfree
        have hget : ∀ id, agenda.get? id = if id = s.agenda.nextId then
            some ⟨id, terminal.rule, τ, t, rule.salience, rule.group, .pending,
              s.matching.binding s.store terminal.scope t,
              Agenda.rankOf s.agenda.strategy rule.salience id⟩
            else s.agenda.get? id := hagenda ▸ Agenda.get?_create
        have F : ({ s with agenda } : Session).Follows
            fun τ' t' => told τ' t' ∨ (τ' = τ ∧ t' = t) := by
          refine ⟨hcons, fun {id a} ha => ?_, fun {id a} ha hs => ?_⟩
          · simp only [hget] at ha
            split at ha
            · cases ha
              exact Or.inr ⟨rfl, rfl⟩
            · exact Or.inl (h.told ha)
          · simp only [hget] at ha
            split at ha
            · cases ha
              obtain ⟨terminal', hterminal', hlive⟩ := hs
              obtain rfl := Option.some.inj (hterminal.symm.trans hterminal')
              exact ⟨terminal, rule, ⟨hterminal, rfl, hrule, rfl, rfl⟩, hlive, rfl⟩
            · exact (s.current_agenda agenda).2 (h.current ha hs)
        simp only [hagenda]
        have hfocus : ∀ b : Bool, (if b then agenda.setFocus rule.group else agenda).Consistent ∧
            (if b then agenda.setFocus rule.group else agenda).get? = agenda.get? := fun b => by
          cases b
          · exact ⟨hcons, rfl⟩
          · exact ⟨hcons.setFocus rule.group, agenda.get?_setFocus rule.group⟩
        split <;> exact F.congr ⟨rfl, rfl, rfl, rfl, rfl, rfl, rfl, rfl, rfl⟩ (hfocus _).1 (hfocus _).2

/-- A token leaves a terminal. -/
theorem Follows.deactivate (h : s.Follows told) {τ : TerminalId} {t : TokenId} :
    (s.deactivate τ t).Follows fun τ' t' => told τ' t' ∧ ¬ (τ' = τ ∧ t' = t) := by
  rcases hc : s.agenda.cancel τ t with ⟨cancelled, agenda⟩
  have D := Agenda.drops_cancel h.agenda hc
  have F : ({ s with agenda } : Session).Follows fun τ' t' => told τ' t' ∧ ¬ (τ' = τ ∧ t' = t) := by
    refine ⟨D.consistent, fun ha => ?_, fun ha hs => ?_⟩
    · obtain ⟨ha, hgone⟩ := D.get?.1 ha
      exact ⟨h.told ha, hgone⟩
    · exact (s.current_agenda agenda).2 (h.current (D.get?.1 ha).1 hs)
  unfold Session.deactivate
  simp only [hc]
  split <;> exact F.congr ⟨rfl, rfl, rfl, rfl, rfl, rfl, rfl, rfl, rfl⟩ F.agenda rfl

/-- The agenda follows the events. -/
theorem Follows.applyEach {events : List MatchEvent} {after : TerminalId → TokenId → Prop}
    (h : s.Follows told) (hr : Replays told after events) :
    s.Aligned (events.foldl applyEvent s) ∧ (events.foldl applyEvent s).Follows after := by
  induction events generalizing s told with
  | nil =>
    refine ⟨.refl s, h.agenda, fun ha => (hr _ _).1 (h.told ha), h.current⟩
  | cons event rest ih =>
    cases event with
    | formed τ t =>
      obtain ⟨A, F⟩ := ih (h.activate hr.1) hr.2
      exact ⟨(aligned_activate s τ t).trans A, F⟩
    | broken τ t =>
      obtain ⟨A, F⟩ := ih h.deactivate hr.2
      exact ⟨(aligned_deactivate s τ t).trans A, F⟩

/-- Only the agenda and the journal know of events that have been applied. -/
theorem aligned_applyEvents (s : Session) :
    ({ s with matching := { s.matching with events := #[] } } : Session).Aligned s.applyEvents := by
  have hall : ∀ (events : List MatchEvent) (s : Session),
      s.Aligned (events.foldl applyEvent s) := by
    intro events
    induction events with
    | nil => exact .refl
    | cons event rest ih =>
      intro s
      cases event with
      | formed τ t => exact (aligned_activate s τ t).trans (ih _)
      | broken τ t => exact (aligned_deactivate s τ t).trans (ih _)
  exact hall _ _

/-- Where there are no events nothing is applied. -/
theorem applyEvents_eq {s : Session} (h : s.matching.events = #[]) : s.applyEvents = s := by
  unfold applyEvents Matching.takeEvents
  rw [h]
  show { s with matching := { s.matching with events := #[] } } = s
  rw [← h]

end

/-! ## Steps -/

/-- A step has changed the matches of a steady session, and the agenda does not know yet. -/
structure Unapplied (s₀ s : Session) : Prop where
  base : s.base = s₀.base
  settings : s.settings = s₀.settings
  agenda : s.agenda = s₀.agenda
  kept : Kept s₀.network s.store
    (.rest s₀.network (s₀.matching.Stands s₀.network) s₀.settings.updatePolicy.agree) s.matching
  direct : s.matching.deferred = none
  fresh : ∀ {h entry}, s.store.entry? h = some entry → h < s.store.nextHandle
  conforms : s.base.Conforms s.store
  proceeds : Matching.Proceeds s₀.network s₀.store s.store s₀.matching s.matching

/-- A session has become another one of the same rules, and that is steady. -/
structure Onward (s₀ s : Session) : Prop where
  base : s.base = s₀.base
  settings : s.settings = s₀.settings
  steady : s.Steady

theorem Onward.network {s₀ s : Session} (h : s₀.Onward s) : s.network = s₀.network := by
  rw [Session.network, h.base]

theorem Onward.wellFormed {s₀ s : Session} (h : s₀.Onward s) (W : s₀.network.WellFormed) :
    s.network.WellFormed := by
  rw [h.network]
  exact W

theorem Onward.trans {s₀ s s' : Session} (h : s₀.Onward s) (h' : s.Onward s') : s₀.Onward s' :=
  ⟨h'.base.trans h.base, h'.settings.trans h.settings, h'.steady⟩

theorem Steady.refl {s : Session} (h : s.Steady) : s.Onward s := ⟨rfl, rfl, h⟩

/-- The agenda belongs to the tokens that stood before, and is right where they stand still. -/
theorem Steady.follows {s₀ s : Session} (h : s₀.Steady) (W : s₀.network.WellFormed)
    (U : Unapplied s₀ s) : ({ s with matching := { s.matching with events := #[] } } : Session).Follows
      (s₀.matching.Stands s₀.network) := by
  have F₀ := h.kept.sound.forest
  have F := U.kept.sound.forest
  have hnet : s.network = s₀.network := by rw [network, U.base]
  refine ⟨?_, fun {id a} ha => ?_, fun {id a} ha hs => ?_⟩
  · show s.agenda.Consistent
    rw [U.agenda]
    exact h.agenda
  · obtain ⟨terminal, rule, hf, hlive, -⟩ := h.current (U.agenda ▸ ha)
    exact ⟨terminal, hf.ends, hlive⟩
  · obtain ⟨terminal, rule, hf, hlive, hbinding⟩ := h.current (U.agenda ▸ ha)
    obtain ⟨terminal', hterminal', hlive'⟩ := hs
    have hends : s.network.terminal? a.terminal = some terminal := hnet ▸ hf.ends
    obtain rfl := Option.some.inj (hends.symm.trans hterminal')
    obtain ⟨o, ho, -⟩ := hlive
    refine ⟨terminal, rule, ⟨hends, hf.place, ?_, hf.salience, hf.group⟩, hlive', ?_⟩
    · change s.base.rules[a.rule]? = some rule
      rw [U.base]
      exact hf.of
    · obtain ⟨o', ho', -⟩ := hlive'
      have hproceeds : Matching.Proceeds s₀.network s₀.store s.store s₀.matching
          { s.matching with events := #[] } := by
        refine ⟨⟨U.proceeds.evolves.next, U.proceeds.evolves.survive, U.proceeds.evolves.born⟩, ?_⟩
        exact U.proceeds.facts
      have F' : ({ s.matching with events := #[] } : Matching).Forest s₀.network :=
        ⟨F.root, F.lt_next, F.made, F.children, F.nodup⟩
      rw [hbinding]
      exact (hproceeds.binding W F₀ F' ho' (F₀.lt_next ho) terminal.scope).symm

/-- A session whose agenda follows the tokens is steady once the events have been applied. -/
theorem Follows.applyEvents {s : Session} {told : TerminalId → TokenId → Prop}
    (h : ({ s with matching := { s.matching with events := #[] } } : Session).Follows told)
    (k : Kept s.network s.store (.rest s.network told s.settings.updatePolicy.agree) s.matching)
    (hdirect : s.matching.deferred = none)
    (hfresh : ∀ {h entry}, s.store.entry? h = some entry → h < s.store.nextHandle)
    (hconforms : s.base.Conforms s.store) : s.Onward s.applyEvents := by
  have A := aligned_applyEvents s
  have hr : Replays told (s.matching.Stands s.network) s.matching.events.toList := k.sound.told
  have F : s.applyEvents.Follows (s.matching.Stands s.network) := (h.applyEach hr).2
  have hnet : s.applyEvents.network = s.network := by rw [network, A.base]
  refine ⟨A.base, A.settings, ?_⟩
  constructor
  · rw [hnet, A.store, A.matching, A.settings]
    exact k.takeEvents
  · rw [A.matching]
  · rw [A.matching]
    exact hdirect
  · rw [A.store]
    exact hfresh
  · rw [A.store, A.base]
    exact hconforms
  · exact F.agenda
  · intro id a ha
    refine F.current ha ?_
    rw [hnet, A.matching]
    exact F.told ha

/-- A session is steady again once the events have been applied. -/
theorem Steady.applyEvents {s₀ s : Session} (h : s₀.Steady) (W : s₀.network.WellFormed)
    (U : Unapplied s₀ s) : s₀.Onward s.applyEvents := by
  have hnet : s.network = s₀.network := by rw [network, U.base]
  have k := U.kept
  rw [← hnet, ← U.settings] at k
  obtain ⟨hbase, hsettings, hsteady⟩ :=
    Follows.applyEvents (hnet ▸ h.follows W U) k U.direct U.fresh U.conforms
  exact ⟨hbase.trans U.base, hsettings.trans U.settings, hsteady⟩

end Session

end RuleNet
