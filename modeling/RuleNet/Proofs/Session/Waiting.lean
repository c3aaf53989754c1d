/-
  While nothing fires, every match waits.

  * `Session.Unhindered`: no activation is kept from the agenda.
  * `Session.Waiting`: moreover every token at a terminal has an activation.
  * `Session.Ready.change`: changes leave it so.
-/
import RuleNet.Proofs.Session.Changes

namespace RuleNet.Session

variable {s s' s₀ : Session} {told after : TerminalId → TokenId → Prop}

/-- Nothing fires, no group is locked, and terminals belong to rules: no activation is kept from the
    agenda. -/
structure Unhindered (s : Session) : Prop where
  idle : s.firing = none
  unlocked : s.agenda.locked = none
  ruled : ∀ {τ terminal}, s.network.terminal? τ = some terminal →
    ∃ rule, s.base.rules[terminal.rule]? = some rule

/-- Tokens that have come to a terminal have their activations. -/
def Awaited (s : Session) (told : TerminalId → TokenId → Prop) : Prop :=
  ∀ τ t terminal, told τ t → s.network.terminal? τ = some terminal →
    ∃ id a, s.agenda.get? id = some a ∧ a.terminal = τ ∧ a.token = t

/-- Every token that stands at a terminal has its activation. -/
structure Waiting (s : Session) : Prop extends Unhindered s where
  awaited : s.Awaited (s.matching.Stands s.network)

theorem Unhindered.congr (h : s.Unhindered) (hb : s'.base = s.base) (hf : s'.firing = s.firing)
    (hl : s'.agenda.locked = s.agenda.locked) : s'.Unhindered where
  idle := hf.trans h.idle
  unlocked := hl.trans h.unlocked
  ruled {τ terminal} := by
    rw [network, hb]
    exact h.ruled

theorem Awaited.congr (h : s.Awaited told) (hb : s'.base = s.base)
    (hget : s'.agenda.get? = s.agenda.get?) : s'.Awaited told := fun τ t terminal ht hτ => by
  rw [network, hb] at hτ
  rw [hget]
  exact h τ t terminal ht hτ

theorem Awaited.mono {fewer : TerminalId → TokenId → Prop} (h : s.Awaited told)
    (hle : ∀ τ t, fewer τ t → told τ t) : s.Awaited fewer :=
  fun τ t terminal ht hτ => h τ t terminal (hle τ t ht) hτ

/-! ## Events -/

/-- A token comes to a terminal. -/
theorem Unhindered.activate (h : s.Unhindered) (hc : s.agenda.Consistent) (ha : s.Awaited told)
    (τ : TerminalId) (t : TokenId) : (s.activate τ t).Unhindered ∧
      (s.activate τ t).Awaited fun τ' t' => told τ' t' ∨ (τ' = τ ∧ t' = t) := by
  unfold Session.activate
  split
  · next hnone =>
    refine ⟨h, fun τ' t' terminal ht hτ' => ?_⟩
    rcases ht with ht | ⟨rfl, -⟩
    · exact ha τ' t' terminal ht hτ'
    · rw [hnone] at hτ'
      cases hτ'
  · next terminal hterminal =>
    obtain ⟨rule, hrule⟩ := h.ruled hterminal
    have hfree : s.isSuppressed terminal.rule rule = false := by
      simp [isSuppressed, Agenda.isLocked, h.idle, h.unlocked]
    obtain ⟨agenda, hagenda⟩ : ∃ agenda, s.agenda.create terminal.rule τ t rule.salience
        rule.group (s.matching.binding s.store terminal.scope t) = agenda := ⟨_, rfl⟩
    have hget : ∀ id, agenda.get? id = if id = s.agenda.nextId then
        some ⟨id, terminal.rule, τ, t, rule.salience, rule.group, .pending,
          s.matching.binding s.store terminal.scope t,
          Agenda.rankOf s.agenda.strategy rule.salience id⟩
        else s.agenda.get? id := hagenda ▸ Agenda.get?_create
    have hlocked : agenda.locked = none := hagenda ▸ h.unlocked
    have hcreated : ({ s with agenda } : Session).Awaited
        fun τ' t' => told τ' t' ∨ (τ' = τ ∧ t' = t) := fun τ' t' terminal' ht hτ' => by
      rcases ht with ht | ⟨rfl, rfl⟩
      · obtain ⟨id, a, hid, hat⟩ := ha τ' t' terminal' ht hτ'
        refine ⟨id, a, ?_, hat⟩
        show agenda.get? id = some a
        rw [hget, if_neg (Nat.ne_of_lt (hc.fresh hid).2), hid]
      · exact ⟨s.agenda.nextId, _, (hget _).trans (if_pos rfl), rfl, rfl⟩
    have hfocus : ∀ b : Bool,
        (if b then agenda.setFocus rule.group else agenda).locked = none ∧
        (if b then agenda.setFocus rule.group else agenda).get? = agenda.get? := fun b => by
      cases b
      · exact ⟨hlocked, rfl⟩
      · exact ⟨Agenda.locked_setFocus hlocked _, agenda.get?_setFocus rule.group⟩
    simp only [hrule, hfree, hagenda, Bool.false_eq_true, if_false]
    split
    all_goals exact ⟨h.congr rfl rfl ((hfocus rule.autoFocus).1.trans h.unlocked.symm),
      hcreated.congr rfl (hfocus rule.autoFocus).2⟩

/-- A token leaves a terminal. -/
theorem Unhindered.deactivate (h : s.Unhindered) (hc : s.agenda.Consistent) (ha : s.Awaited told)
    (τ : TerminalId) (t : TokenId) : (s.deactivate τ t).Unhindered ∧
      (s.deactivate τ t).Awaited fun τ' t' => told τ' t' ∧ ¬ (τ' = τ ∧ t' = t) := by
  rcases hcancel : s.agenda.cancel τ t with ⟨cancelled, agenda⟩
  have D := Agenda.drops_cancel hc hcancel
  have hlocked : agenda.locked = s.agenda.locked := by
    rw [← s.agenda.locked_cancel τ t, hcancel]
  have hrest : ({ s with agenda } : Session).Awaited
      fun τ' t' => told τ' t' ∧ ¬ (τ' = τ ∧ t' = t) := fun τ' t' terminal ht hτ' => by
    obtain ⟨id, a, hid, rfl, rfl⟩ := ha τ' t' terminal ht.1 hτ'
    exact ⟨id, a, D.get?.2 ⟨hid, ht.2⟩, rfl, rfl⟩
  unfold Session.deactivate
  simp only [hcancel]
  split
  all_goals exact ⟨h.congr rfl rfl hlocked, hrest.congr rfl rfl⟩

/-- Tokens come and go, and the agenda follows: of some tokens that have their activations, those
    that stay and those that come have them. -/
theorem Unhindered.applyEach {some : TerminalId → TokenId → Prop} {events : List MatchEvent}
    (h : s.Unhindered) (F : s.Follows told) (ha : s.Awaited fun τ t => told τ t ∧ some τ t)
    (hr : Replays told after events) : (events.foldl applyEvent s).Unhindered ∧
      (events.foldl applyEvent s).Awaited fun τ t => after τ t ∧ some τ t := by
  induction events generalizing s told with
  | nil => exact ⟨h, ha.mono fun τ t ht => ht.imp_left (hr τ t).2⟩
  | cons event rest ih =>
    cases event with
    | formed τ t =>
      obtain ⟨h', ha'⟩ := h.activate F.agenda ha τ t
      refine ih h' (F.activate hr.1) (ha'.mono fun τ' t' ht => ?_) hr.2
      exact ht.1.imp_left fun hold => ⟨hold, ht.2⟩
    | broken τ t =>
      obtain ⟨h', ha'⟩ := h.deactivate F.agenda ha τ t
      exact ih h' F.deactivate (ha'.mono fun τ' t' ht => ⟨⟨ht.1.1, ht.2⟩, ht.1.2⟩) hr.2

/-- All tokens that stay and that come have their activations. -/
theorem Unhindered.applyAll {events : List MatchEvent} (h : s.Unhindered) (F : s.Follows told)
    (ha : s.Awaited told) (hr : Replays told after events) :
    (events.foldl applyEvent s).Unhindered ∧ (events.foldl applyEvent s).Awaited after := by
  obtain ⟨h', ha'⟩ := @applyEach s told after (fun _ _ => True) events h F
    (ha.mono fun _ _ ht => ht.1) hr
  exact ⟨h', ha'.mono fun _ _ ht => ⟨ht, trivial⟩⟩

/-! ## Changes -/

/-- The events of a step are applied. -/
theorem Waiting.applyEvents (h : s₀.Waiting) (S : s₀.Steady) (W : s₀.network.WellFormed)
    (U : Unapplied s₀ s) (hf : s.firing = s₀.firing) : s.applyEvents.Waiting := by
  have hnet : s.network = s₀.network := by rw [network, U.base]
  have hr : Replays (s₀.matching.Stands s₀.network) (s.matching.Stands s.network)
      s.matching.events.toList := hnet ▸ U.kept.sound.told
  have hu : ({ s with matching := { s.matching with events := #[] } } : Session).Unhindered :=
    h.toUnhindered.congr U.base hf (congrArg Agenda.locked U.agenda)
  have ha : ({ s with matching := { s.matching with events := #[] } } : Session).Awaited
      (s₀.matching.Stands s₀.network) :=
    h.awaited.congr U.base (congrArg Agenda.get? U.agenda)
  obtain ⟨hu', ha'⟩ := hu.applyAll (S.follows W U) ha hr
  have A := aligned_applyEvents s
  refine ⟨hu', ?_⟩
  show s.applyEvents.Awaited (s.applyEvents.matching.Stands s.applyEvents.network)
  rw [network, A.base, A.matching]
  exact ha'

theorem Waiting.same (h : s.Waiting) (hb : s'.base = s.base) (hf : s'.firing = s.firing)
    (hm : s'.matching = s.matching) (ha : s'.agenda = s.agenda) : s'.Waiting where
  toUnhindered := h.toUnhindered.congr hb hf (congrArg _ ha)
  awaited := by
    rw [network, hb, hm]
    exact h.awaited.congr hb (congrArg _ ha)

/-- A steady session in which every match waits. -/
structure Ready (s : Session) : Prop where
  steady : s.Steady
  wellFormed : s.network.WellFormed
  waiting : s.Waiting

namespace Ready

/-- A session starts with all its matches waiting. -/
theorem start {base : RuleBase} (W : base.network.WellFormed)
    (hruled : ∀ {τ terminal}, base.network.terminal? τ = some terminal →
      ∃ rule, base.rules[terminal.rule]? = some rule) (settings : Settings) (reading : Moment) :
    (Session.start base settings reading).Ready := by
  obtain ⟨hsteady, hbase, -⟩ := steady_start W settings reading
  refine ⟨hsteady, by rw [network, hbase]; exact W, ?_⟩
  have hnone : ∀ {id a}, (Agenda.empty settings.conflictStrategy).get? id ≠ some a :=
    fun {id a} ha => by
      rw [Agenda.get?, Agenda.empty, Std.ExtTreeMap.getElem?_empty] at ha
      cases ha
  obtain ⟨k, -⟩ := @Kept.start base.network (.empty settings.identityMode) W _
    settings.updatePolicy.agree_refl
  obtain ⟨s₁, hs₁⟩ : ∃ s₁ : Session, s₁ = ⟨base, settings, .empty settings.identityMode,
    Matching.start base.network (.empty settings.identityMode), .empty settings.conflictStrategy,
    .start settings reading, .empty, [], #[], none, false⟩ := ⟨_, rfl⟩
  have hstart : Session.start base settings reading = s₁.applyEvents := by rw [hs₁]; rfl
  have hr : Replays (fun _ _ => False) (s₁.matching.Stands s₁.network)
      s₁.matching.events.toList := by rw [hs₁]; exact k.sound.told
  have hu : ({ s₁ with matching := { s₁.matching with events := #[] } } : Session).Unhindered := by
    rw [hs₁]
    exact ⟨rfl, rfl, hruled⟩
  have hf : ({ s₁ with matching := { s₁.matching with events := #[] } } : Session).Follows
      fun _ _ => False := by
    rw [hs₁]
    exact ⟨Agenda.consistent_empty _, fun ha => absurd ha hnone, fun ha => absurd ha hnone⟩
  obtain ⟨hu', ha'⟩ := hu.applyAll hf (fun _ _ _ ht => ht.elim) hr
  have A := aligned_applyEvents s₁
  rw [hstart]
  refine ⟨hu', ?_⟩
  show s₁.applyEvents.Awaited (s₁.applyEvents.matching.Stands s₁.applyEvents.network)
  rw [network, A.base, A.matching]
  exact ha'

theorem applyEvents (h : s₀.Ready) (U : Unapplied s₀ s) (hf : s.firing = s₀.firing) :
    s.applyEvents.Ready := by
  have ho := h.steady.applyEvents h.wellFormed U
  exact ⟨ho.steady, ho.network ▸ h.wellFormed, h.waiting.applyEvents h.steady h.wellFormed U hf⟩

theorem same (h : s.Ready) (hb : s'.base = s.base) (hset : s'.settings = s.settings)
    (hs : s'.store = s.store) (hm : s'.matching = s.matching) (ha : s'.agenda = s.agenda)
    (hf : s'.firing = s.firing) : s'.Ready := by
  have ho := h.steady.same hb hset hs hm ha
  exact ⟨ho.steady, ho.network ▸ h.wellFormed, h.waiting.same hb hf hm ha⟩

/-- So it is along every change. -/
theorem conveys : Conveys fun s t => s.Ready → t.Ready where
  refl _ := id
  trans h h' := h' ∘ h
  beside _ _ _ h := h.same rfl rfl rfl rfl rfl rfl
  remove _ _ he h := by
    obtain ⟨store, hremove, -⟩ := WorkingMemory.remove?_live he
    rw [remove_eq hremove]
    exact h.applyEvents (h.steady.unapplied_remove h.wellFormed he hremove) rfl
  windows now _ _ h := h.applyEvents (h.steady.unapplied_windows h.wellFormed now) rfl
  receive {s fact type} _ _ hc h := by
    rw [receive_eq s type fact rfl]
    exact h.applyEvents (h.steady.unapplied_receive h.wellFormed hc rfl) rfl
  exchange {s i entry fact type} _ _ he ht hc h := by
    obtain ⟨store, hreplace, -⟩ :=
      WorkingMemory.replace?_live he ht (type.moment fact entry.moment)
    rw [exchange_eq type hreplace]
    exact h.applyEvents (h.steady.unapplied_exchange h.wellFormed he ht hc hreplace) rfl

/-- Changes leave every match waiting. -/
theorem change (h : s.Ready) (c : Change) : (s.change c).Ready :=
  conveys.change h.steady h.wellFormed c h

theorem changesAt (h : s.Ready) (changes : List (Moment × Change)) :
    (changes.foldl changeAt s).Ready := by
  induction changes generalizing s with
  | nil => exact h
  | cons c rest ih =>
    have hread : (s.read c.1).Ready := h.same rfl rfl rfl rfl rfl rfl
    exact ih (hread.change c.2)

end Ready

end RuleNet.Session
