/-
  Sessions that let facts go.

  When time passes, facts leave the store and events leave windows, one after the other. What waits in
  the end depends on the facts that are left, and not on the order in which the others went: an
  activation that waited before waits on if its token stands, and every new token has one.

  * `Session.Awaits`: whether a token at a terminal has an activation.
  * `Session.Ebbs`: a session has let facts go.
  * `Session.Ebbs.applied`, `Session.Ebbs.trans`: after one step, and after two of them.
  * `Session.ebbs_synchronize`: so it is where what is overdue goes.
  * `Session.Ebbs.pending`: two sessions that have let the same facts go have the same waiting.
-/
import RuleNet.Proofs.Matching.Ebb
import RuleNet.Proofs.Matching.Strides
import RuleNet.Proofs.Session.Mirror
import RuleNet.Proofs.Session.Waiting

namespace RuleNet

/-- Taking the events leaves the tokens as they are. -/
theorem Treats.takeEvents {net : Network} {store : WorkingMemory} {w : Manner} {m m' : Matching}
    (T : Treats net store w m m') : Treats net store w m { m' with events := #[] } := by
  have hmatch : ({ m' with events := #[] } : Matching).matchOf = m'.matchOf :=
    Matching.matchOf_congr rfl
  have hover : ∀ n left, ({ m' with events := #[] } : Matching).Overdue net store n left ↔
      m'.Overdue net store n left := fun n left => by
    rw [Matching.Overdue, Matching.Overdue, Matching.OnTime, Matching.OnTime, hmatch]
    rfl
  refine ⟨T.forest, T.forest'.congr rfl rfl, T.survive, fun {n node left} hn hlt hl => ?_,
    fun {n node left} hn hle hl => ?_⟩
  · have h := T.stays hn hlt hl
    exact ⟨h.old, h.new, (hover n left).trans h.overdue⟩
  · obtain ⟨hmade, hdue⟩ := T.comes hn hle hl
    rw [hmatch]
    exact ⟨hmade, (hover n left).trans hdue⟩

namespace Session

variable {s s' s₀ s₁ s₂ : Session} {told after : TerminalId → TokenId → Prop} {τ : TerminalId}
  {t : TokenId}

/-! ## Activations of tokens -/

/-- A token at a terminal has an activation. -/
def Awaits (s : Session) (τ : TerminalId) (t : TokenId) : Prop :=
  ∃ id a, s.agenda.get? id = some a ∧ a.terminal = τ ∧ a.token = t

/-- Activations come with tokens only. -/
theorem Follows.awaits_applyEach {events : List MatchEvent} (F : s.Follows told)
    (hr : Replays told after events) (h : (events.foldl applyEvent s).Awaits τ t) :
    s.Awaits τ t ∨ .formed τ t ∈ events := by
  induction events generalizing s told with
  | nil => exact .inl h
  | cons event rest ih =>
    -- the activations of a session follow those tokens that have one
    have own : s.Follows s.Awaits := ⟨F.agenda, fun ha => ⟨_, _, ha, rfl, rfl⟩, F.current⟩
    cases event with
    | formed τ' t' =>
      rcases ih (F.activate hr.1) hr.2 h with hbefore | hlater
      · have hnew : ¬ s.Awaits τ' t' := fun ⟨_, _, ha, hτ, ht⟩ => hr.1 (hτ ▸ ht ▸ F.told ha)
        obtain ⟨id, a, ha, rfl, rfl⟩ := hbefore
        refine ((own.activate hnew).told ha).imp_right fun heq => ?_
        rw [heq.1, heq.2]
        exact List.mem_cons_self
      · exact .inr (List.mem_cons_of_mem _ hlater)
    | broken τ' t' =>
      rcases ih F.deactivate hr.2 h with hbefore | hlater
      · obtain ⟨id, a, ha, rfl, rfl⟩ := hbefore
        exact .inl (own.deactivate.told ha).1
      · exact .inr (List.mem_cons_of_mem _ hlater)

/-- A token that has an activation stands at its terminal. -/
theorem Steady.stands (h : s.Steady) (ha : s.Awaits τ t) : s.matching.Stands s.network τ t := by
  obtain ⟨id, a, hid, rfl, rfl⟩ := ha
  obtain ⟨terminal, rule, hf, hlive, -⟩ := h.current hid
  exact ⟨terminal, hf.ends, hlive⟩

theorem Steady.lt_next (h : s.Steady) (hs : s.matching.Stands s.network τ t) :
    t < s.matching.nextToken := by
  obtain ⟨_, -, o, ho, -⟩ := hs
  exact h.kept.sound.forest.lt_next ho

/-! ## Letting facts go -/

/-- A session has let facts go. Some of its facts are left, in some of their memories; its tokens have
    been treated accordingly; and the activations are those of new tokens and of old tokens that had
    one and still stand. -/
structure Ebbs (s₀ s : Session) : Prop where
  onward : s₀.Onward s
  unhindered : s.Unhindered
  stored : ∀ {i entry}, s.store.entry? i = some entry → s₀.store.entry? i = some entry
  members : ∀ a, ∀ i ∈ s.matching.members a, i ∈ s₀.matching.members a
  next : s₀.matching.nextToken ≤ s.matching.nextToken
  treats : Treats s₀.network s₀.store
    (.ebb s₀.store s₀.matching.members s.matching.members) s₀.matching s.matching
  awaits : ∀ τ t, s.Awaits τ t ↔
    s.matching.Stands s.network τ t ∧ (s₀.matching.nextToken ≤ t ∨ s₀.Awaits τ t)

/-- Where nothing has gone. -/
theorem Ebbs.of_same (h : s.Steady) (U : s.Unhindered) (ho : s.Onward s')
    (hstore : s'.store = s.store) (hmatching : s'.matching = s.matching)
    (hagenda : s'.agenda = s.agenda) (hfiring : s'.firing = s.firing) : s.Ebbs s' where
  onward := ho
  unhindered := U.congr ho.base hfiring (congrArg _ hagenda)
  stored hi := hstore ▸ hi
  members a i hi := hmatching ▸ hi
  next := Nat.le_of_eq (congrArg _ hmatching.symm)
  treats := by
    rw [hmatching]
    exact .ebb_refl h.kept.sound.forest (h.kept.sound.due Ledger.still_rest) h.direct
  awaits τ t := by
    rw [Awaits, hagenda, hmatching, ho.network]
    refine ⟨fun ha => ⟨h.stands ha, .inr ha⟩, fun ⟨hs, hold⟩ => hold.resolve_left fun hle => ?_⟩
    exact Nat.not_lt.2 hle (h.lt_next hs)

/-- The facts of memories that are left are what they were. -/
theorem Ebbs.entry?_eq (E : s₀.Ebbs s) {a : AlphaId} {i : Handle} (hi : i ∈ s.matching.members a) :
    s₀.store.entry? i = s.store.entry? i := by
  obtain ⟨-, entry, -, he, -⟩ := E.onward.steady.kept.stocked.typed hi
  rw [he, E.stored he]

/-- What has gone in two steps has gone. -/
theorem Ebbs.trans (h : s₀.Steady) (E : s₀.Ebbs s₁) (E' : s₁.Ebbs s₂) : s₀.Ebbs s₂ where
  onward := E.onward.trans E'.onward
  unhindered := E'.unhindered
  stored he := E.stored (E'.stored he)
  members a i hi := E.members a i (E'.members a i hi)
  next := Nat.le_trans E.next E'.next
  treats := by
    have k := E.onward.steady.kept
    have k' := E'.onward.steady.kept
    have T := E'.treats
    rw [E'.onward.network] at k'
    rw [E.onward.network] at k k' T
    have T' := T.restock k.sound Ledger.still_rest k'.sound Ledger.still_rest
      E'.onward.steady.direct E'.members fun a i hi => E.entry?_eq hi
    exact E.treats.ebb_trans T' E.next (h.kept.sound.due Ledger.still_rest) E.members E'.members
  awaits τ t := by
    rw [E'.awaits, E.awaits]
    refine and_congr_right fun hs => ⟨?_, ?_⟩
    · rintro (hle | ⟨-, hbefore⟩)
      · exact .inl (Nat.le_trans E.next hle)
      · exact hbefore
    · intro hbefore
      by_cases hlt : t < s₁.matching.nextToken
      · obtain ⟨terminal, hτ, hl⟩ := hs
        exact .inr ⟨⟨terminal, E'.onward.network ▸ hτ, (E'.treats.earlier hlt hl).1⟩, hbefore⟩
      · exact .inl (Nat.not_lt.1 hlt)

/-- A step has let facts go, and its events are applied. -/
theorem Ebbs.applied (h : s₀.Steady) (W : s₀.network.WellFormed) (U : s₀.Unhindered)
    (A : Unapplied s₀ s) (hf : s.firing = s₀.firing)
    (hstored : ∀ {i entry}, s.store.entry? i = some entry → s₀.store.entry? i = some entry)
    (hmembers : ∀ a, ∀ i ∈ s.matching.members a, i ∈ s₀.matching.members a)
    (T : Treats s₀.network s₀.store (.turn s₀.store s₀.matching.members s.matching.members
      s₀.matching.deferred.isSome) s₀.matching s.matching)
    (N : Matching.Course s₀.network s₀.matching s.matching) : s₀.Ebbs s.applyEvents := by
  have hnet : s.network = s₀.network := by rw [network, A.base]
  have hr : Replays (s₀.matching.Stands s₀.network) (s.matching.Stands s.network)
      s.matching.events.toList := hnet ▸ A.kept.sound.told
  have hu : ({ s with matching := { s.matching with events := #[] } } : Session).Unhindered :=
    U.congr A.base hf (congrArg _ A.agenda)
  have hold : ∀ τ t, ({ s with matching := { s.matching with events := #[] } } : Session).Awaits τ t ↔
      s₀.Awaits τ t := fun τ t => by
    rw [Awaits, Awaits, A.agenda]
  have F := h.follows W A
  have L := aligned_applyEvents s
  obtain ⟨U', hawaited⟩ := @Unhindered.applyEach _ _ _
    (fun τ t => s₀.matching.nextToken ≤ t ∨ s₀.Awaits τ t) _ hu F
    (fun τ t terminal ht _ => (hold τ t).2
      (ht.2.resolve_left fun hle => Nat.not_lt.2 hle (h.lt_next ht.1))) hr
  refine ⟨h.applyEvents W A, U', ?_, ?_, ?_, ?_, fun τ t => ?_⟩
  · rw [L.store]
    exact hstored
  · rw [L.matching]
    exact hmembers
  · rw [L.matching]
    exact N.survive.1
  · rw [L.matching]
    exact (T.ebb h.kept.sound h.direct A.direct hmembers).takeEvents
  · have hstands : s.applyEvents.matching.Stands s.applyEvents.network τ t ↔
        s.matching.Stands s.network τ t := by
      rw [L.matching, network, L.base]
      exact Iff.rfl
    rw [hstands]
    constructor
    · intro ha
      refine ⟨hstands.1 ((h.applyEvents W A).steady.stands ha), ?_⟩
      rcases F.awaits_applyEach hr ha with hbefore | hformed
      · exact .inr ((hold τ t).1 hbefore)
      · refine .inl ((N.formed_new hformed).resolve_left fun hno => ?_)
        rw [h.told] at hno
        cases hno
    · rintro ⟨hs, hbefore⟩
      obtain ⟨terminal, hτ, -⟩ := hstands.2 hs
      exact hawaited τ t terminal ⟨hs, hbefore⟩ hτ

/-! ## Synchronizing -/

/-- What a session has to be for its facts to go without a trace. -/
structure Placid (s : Session) : Prop where
  steady : s.Steady
  wellFormed : s.network.WellFormed
  folds : s.network.Folds fun type fold => fold.OfIntegers s.base.types type
  unhindered : s.Unhindered

namespace Placid

theorem grounds (C : s.Placid) : s.network.Grounds s.store s.due :=
  s.grounds C.wellFormed C.folds C.steady.conforms

/-- It stays so while facts go. -/
theorem ebbs (C : s.Placid) (E : s.Ebbs s') : s'.Placid where
  steady := E.onward.steady
  wellFormed := E.onward.network ▸ C.wellFormed
  folds := by
    rw [network, E.onward.base]
    exact C.folds
  unhindered := E.unhindered

/-- A live fact goes. -/
theorem remove (C : s.Placid) {i : Handle} {entry : Entry} (he : s.store.entry? i = some entry) :
    s.Ebbs (s.remove i).2 := by
  have h := C.steady
  have G := C.grounds
  obtain ⟨store, hremove, -, -, hentry⟩ := WorkingMemory.remove?_live he
  have hf := WorkingMemory.fact?_eq he
  have D := h.kept.retract C.wellFormed G.quiet hf rfl
  rw [remove_eq hremove]
  refine .applied h C.wellFormed C.unhindered (h.unapplied_remove C.wellFormed he hremove) rfl
    (fun {j entry'} hj => ?_) (fun a j hj => (D.members.1 hj).1)
    (h.kept.treats_retract C.wellFormed G.quiet G.still hf rfl (G.sums D.kept.stocked))
    (Matching.course_retract s.matching i)
  change store.entry? j = some entry' at hj
  rw [hentry] at hj
  split at hj
  · cases hj
  · exact hj

/-- Events leave the windows they are too old for. -/
theorem windows (C : s.Placid) (now : Moment) : s.Ebbs (applyEvents
    { s with matching := s.matching.expireWindows s.network s.store now }) := by
  have h := C.steady
  have G := C.grounds
  obtain ⟨k, -, -⟩ := h.kept.expireWindows C.wellFormed G.quiet G.still.told now rfl
  refine .applied h C.wellFormed C.unhindered (h.unapplied_windows C.wellFormed now) rfl id
    (fun a i hi => ?_)
    (h.kept.treats_expireWindows C.wellFormed G.quiet G.still now rfl (G.sums k.stocked))
    (Matching.course_expireWindows s.matching now)
  obtain ⟨alpha, entry, halpha, -⟩ := k.stocked.typed hi
  change i ∈ ((s.matching.expireWindows s.network s.store now).shelf a).facts at hi
  rw [Matching.shelf_expireWindows h.kept.stocked now halpha] at hi
  exact (Shelf.mem_takeAll.1 hi).1

end Placid

/-- So it is along whatever lets facts go. -/
theorem sheds_ebbs : Sheds fun s t => s.Placid → s.Ebbs t where
  refl _ C := .of_same C.steady C.unhindered C.steady.refl rfl rfl rfl rfl
  trans h h' C := (h C).trans C.steady (h' (C.ebbs (h C)))
  beside _ _ _ C := .of_same C.steady C.unhindered
    (C.steady.same rfl rfl rfl rfl rfl) rfl rfl rfl rfl
  remove _ _ he C := C.remove he
  windows now _ _ C := C.windows now

/-! ## What waits -/

/-- Two sessions that have let facts go and have the same left: whatever waits in the one, an activation
    of the same rule for the same match waits in the other. -/
theorem Ebbs.pending (W : s.network.WellFormed) (E₁ : s.Ebbs s₁) (E₂ : s.Ebbs s₂)
    (hmembers : s₂.matching.members = s₁.matching.members)
    (hsame : ∀ i, s₁.store.entry? i = s₂.store.entry? i) {a : Activation}
    (ha : a ∈ s₁.agenda.pending) :
    ∃ b ∈ s₂.agenda.pending, b.rule = a.rule ∧ b.binding = a.binding := by
  have h₁ := E₁.onward.steady
  have h₂ := E₂.onward.steady
  have F₁ := E₁.treats.forest'
  have F₂ := E₂.treats.forest'
  obtain ⟨id, hid⟩ := h₁.agenda.mem_pending.1 ha
  obtain ⟨terminal, rule, hf, ⟨o, ho, hnode⟩, hbinding⟩ := h₁.current hid
  have hends : s.network.terminal? a.terminal = some terminal := E₁.onward.network ▸ hf.ends
  -- the token has one like it in the other session, and that one has an activation
  obtain ⟨t, ⟨o', ho', hnode'⟩, hmatch, hage⟩ := E₁.treats.alike (hmembers ▸ E₂.treats) ho
  have hstands : s₂.matching.Stands s₂.network a.terminal t :=
    ⟨terminal, E₂.onward.network.symm ▸ hends, o', ho', hnode'.trans hnode⟩
  have hbefore : s.matching.nextToken ≤ t ∨ s.Awaits a.terminal t := by
    rcases hage with ⟨hlt, rfl⟩ | ⟨-, hle⟩
    · exact ((E₁.awaits _ _).1 ⟨id, a, hid, rfl, rfl⟩).2
    · exact .inl hle
  obtain ⟨id', b, hid', hτ, rfl⟩ := (E₂.awaits _ _).2 ⟨hstands, hbefore⟩
  obtain ⟨terminal', rule', hf', -, hbinding'⟩ := h₂.current hid'
  have hends' : s.network.terminal? b.terminal = some terminal' := E₂.onward.network ▸ hf'.ends
  rw [hτ, hends] at hends'
  obtain rfl := Option.some.inj hends'
  refine ⟨b, h₂.agenda.mem_pending.2 ⟨id', hid'⟩, hf'.place.trans hf.place.symm, ?_⟩
  calc b.binding
      = (s₂.matching.matchOf b.token).binding s₂.store terminal.scope := by
        rw [hbinding', Matching.binding_eq W F₂ ho']
    _ = (s₁.matching.matchOf a.token).binding s₁.store terminal.scope := by
        rw [hmatch, Match.binding_congr terminal.scope fun i _ => (hsame i).symm]
    _ = a.binding := by rw [hbinding, Matching.binding_eq W F₁ ho]

end Session

end RuleNet
