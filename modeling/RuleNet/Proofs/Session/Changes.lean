/-
  What holds along every change.

  A change first lets go what is overdue, and then a fact comes, changes or goes. What holds along each
  of these steps holds along the change.

  * `Session.Carries`: relations that hold along the steps of any session.
  * `Session.Sheds`: relations that hold where a steady session lets facts go.
  * `Session.Conveys`: relations that hold along all steps of a steady session.

  Every change is made of alterations, after each of which the agenda gets to know: a fact goes, events
  leave their windows, a fact comes, or a fact gets another value.

  * `Session.Alters`: one alteration, before the agenda knows, and the matches at its turn, when the facts
    change.
  * `Session.Alters.unapplied`: the matches are right after it.
  * `Session.Alters.hither`, `Session.Alters.onward`: they have gone to the turn and on by strides.
  * `Session.Alters.proceeds`: what is left at the turn does not rest on facts that change.
  * `Session.conveys_alters`: what holds along every alteration holds along every change.
-/
import RuleNet.Proofs.Matching.Strides
import RuleNet.Proofs.Session.Reached

namespace RuleNet.Session

/-! ## For any session -/

/-- A relation of sessions that holds wherever activations come or go and wherever facts, matches, time
    or the journal change, so that it holds along whatever is made of such steps. -/
structure Carries (R : Session → Session → Prop) : Prop where
  refl : ∀ s, R s s
  trans : ∀ {s t u}, R s t → R t u → R s u
  beside : ∀ (s : Session) (store : WorkingMemory) (matching : Matching) (clock : Clock)
    (expiry : ExpirySchedule) (journal : Array JournalEvent),
    R s { s with store, matching, clock, expiry, journal }
  activate : ∀ (s : Session) τ t, R s (s.activate τ t)
  deactivate : ∀ (s : Session) τ t, R s (s.deactivate τ t)

namespace Carries

variable {R : Session → Session → Prop} (C : Carries R)
include C

theorem foldl {α : Type} {f : Session → α → Session} (hf : ∀ s a, R s (f s a)) (items : List α)
    (s : Session) : R s (items.foldl f s) := by
  induction items generalizing s with
  | nil => exact C.refl s
  | cons a rest ih => exact C.trans (hf s a) (ih _)

theorem applyEvents (s : Session) : R s s.applyEvents := by
  have htaken := C.beside s s.store { s.matching with events := #[] } s.clock s.expiry s.journal
  refine C.trans htaken (C.foldl (fun s event => ?_) _ _)
  cases event with
  | formed τ t => exact C.activate s τ t
  | broken τ t => exact C.deactivate s τ t

/-- Facts, matches and deadlines have changed, and the agenda gets to know. -/
theorem applied {s : Session} {store : WorkingMemory} {matching : Matching} {expiry : ExpirySchedule}
    {journal : Array JournalEvent} :
    R s ({ s with store, matching, expiry, journal } : Session).applyEvents :=
  C.trans (C.beside s store matching s.clock expiry journal) (C.applyEvents _)

theorem remove (s : Session) (i : Handle) : R s (s.remove i).2 := by
  cases hr : s.store.remove? i with
  | error e =>
    unfold Session.remove
    simp only [hr]
    exact C.beside s s.store _ s.clock s.expiry s.journal
  | ok removed =>
    obtain ⟨entry, store⟩ := removed
    rw [remove_eq hr]
    exact C.applied

theorem expire (s : Session) (i : Handle) : R s (s.expire i) := by
  unfold Session.expire
  split
  · exact C.remove s i
  · exact C.refl s

theorem synchronize (s : Session) : R s s.synchronize := by
  have htaken := C.beside s s.store s.matching s.clock (s.expiry.takeDue s.now) s.journal
  exact C.trans (C.trans htaken (C.foldl C.expire (s.expiry.due s.now) _)) C.applied

theorem receive (s : Session) (type : FactType) (fact : Fact) : R s (s.receive type fact).2 := by
  rw [receive_eq s type fact rfl]
  exact C.applied

theorem exchange (s : Session) (type : FactType) (i : Handle) (fact : Fact) (previous : Moment) :
    R s (s.exchange type i fact previous).2 := by
  cases hr : s.store.replace? i fact (type.moment fact previous) with
  | error e =>
    unfold Session.exchange
    simp only [hr]
    exact C.beside s s.store _ s.clock s.expiry s.journal
  | ok replaced =>
    obtain ⟨entry, store⟩ := replaced
    rw [exchange_eq type hr]
    exact C.applied

theorem insert (s : Session) (fact : Fact) : R s (s.insert fact).2 := by
  have hs := C.synchronize s
  unfold Session.insert
  dsimp only
  split
  · exact hs
  · split
    · exact hs
    · exact C.trans hs (C.receive _ _ _)

theorem update (s : Session) (i : Handle) (fact : Fact) : R s (s.update i fact).2 := by
  have hs := C.synchronize s
  unfold Session.update
  dsimp only
  split
  · exact hs
  · split
    · exact hs
    · split
      · exact hs
      · exact C.trans hs (C.exchange _ _ _ _ _)

theorem change (s : Session) (c : Change) : R s (s.change c) := by
  have hs := C.synchronize s
  cases c with
  | insert fact => exact C.insert s fact
  | update i fact => exact C.update s i fact
  | modify i change =>
    unfold Session.change Session.modify
    dsimp only
    split
    · exact C.refl s
    · exact C.update s i _
  | retract i =>
    unfold Session.change Session.retract
    dsimp only
    split
    · exact C.trans hs (C.remove _ _)
    · exact hs
  | advance span =>
    unfold Session.change Session.advance
    dsimp only
    split
    · exact C.refl s
    · next clock _ =>
      have hmoved := C.beside s s.store s.matching clock s.expiry s.journal
      exact C.trans hmoved (C.synchronize _)

end Carries

/-! ## For steady sessions -/

/-- A relation that holds where a fact of a steady session goes and where its windows move on, so that
    it holds where a session lets go what is overdue. -/
structure Sheds (R : Session → Session → Prop) : Prop where
  refl : ∀ s, R s s
  trans : ∀ {s t u}, R s t → R t u → R s u
  beside : ∀ (s : Session) (clock : Clock) (expiry : ExpirySchedule), R s { s with clock, expiry }
  remove : ∀ {s i entry}, s.Steady → s.network.WellFormed → s.store.entry? i = some entry →
    R s (s.remove i).2
  windows : ∀ {s} (now : Moment), s.Steady → s.network.WellFormed →
    R s ({ s with matching := s.matching.expireWindows s.network s.store now } : Session).applyEvents

/-- A relation that holds where a fact of a steady session comes, changes or goes and where its windows
    move on, so that it holds along whatever is made of such steps. -/
structure Conveys (R : Session → Session → Prop) : Prop extends Sheds R where
  receive : ∀ {s fact type}, s.Steady → s.network.WellFormed → s.checkFact fact = .ok type →
    R s (s.receive type fact).2
  exchange : ∀ {s i entry fact type}, s.Steady → s.network.WellFormed →
    s.store.entry? i = some entry → entry.fact.type = fact.type → s.checkFact fact = .ok type →
    R s (s.exchange type i fact entry.moment).2

namespace Sheds

variable {R : Session → Session → Prop} (C : Sheds R)
include C

theorem expire {s : Session} (h : s.Steady) (W : s.network.WellFormed) (i : Handle) :
    R s (s.expire i) := by
  unfold Session.expire
  split
  · next hlive =>
    obtain ⟨entry, he⟩ := WorkingMemory.contains_iff.1 hlive
    exact C.remove h W he
  · exact C.refl s

theorem expireEach {s : Session} (h : s.Steady) (W : s.network.WellFormed) (due : List Handle) :
    R s (due.foldl Session.expire s) := by
  induction due generalizing s with
  | nil => exact C.refl s
  | cons i rest ih =>
    have ho := h.expire W i
    exact C.trans (C.expire h W i) (ih ho.steady (ho.wellFormed W))

theorem synchronize {s : Session} (h : s.Steady) (W : s.network.WellFormed) :
    R s s.synchronize := by
  have htaken : s.Onward { s with expiry := s.expiry.takeDue s.now } := h.same rfl rfl rfl rfl rfl
  have hgone := htaken.trans (htaken.steady.expireEach W (s.expiry.due s.now))
  have hdue := C.trans (C.beside s s.clock (s.expiry.takeDue s.now))
    (C.expireEach htaken.steady W (s.expiry.due s.now))
  exact C.trans hdue (C.windows s.now hgone.steady (hgone.wellFormed W))

theorem advance {s : Session} (h : s.Steady) (W : s.network.WellFormed) (span : Span) :
    R s (s.advance span).2 := by
  unfold Session.advance
  split
  · exact C.refl s
  · next clock _ =>
    have ho : s.Onward { s with clock } := h.same rfl rfl rfl rfl rfl
    exact C.trans (C.beside s clock s.expiry) (C.synchronize ho.steady W)

end Sheds

namespace Conveys

variable {R : Session → Session → Prop} (C : Conveys R)
include C

theorem insert {s : Session} (h : s.Steady) (W : s.network.WellFormed) (fact : Fact) :
    R s (s.insert fact).2 := by
  have hs := C.synchronize h W
  have ho := h.synchronize W
  unfold Session.insert
  dsimp only
  split
  · exact hs
  · next type hc =>
    split
    · exact hs
    · exact C.trans hs (C.receive ho.steady (ho.wellFormed W) hc)

theorem update {s : Session} (h : s.Steady) (W : s.network.WellFormed) (i : Handle) (fact : Fact) :
    R s (s.update i fact).2 := by
  have hs := C.synchronize h W
  have ho := h.synchronize W
  unfold Session.update
  dsimp only
  split
  · exact hs
  · next entry he =>
    split
    · exact hs
    · next ht =>
      split
      · exact hs
      · next type hc =>
        exact C.trans hs
          (C.exchange ho.steady (ho.wellFormed W) he (Decidable.of_not_not ht) hc)

theorem change {s : Session} (h : s.Steady) (W : s.network.WellFormed) (c : Change) :
    R s (s.change c) := by
  cases c with
  | insert fact => exact C.insert h W fact
  | update i fact => exact C.update h W i fact
  | modify i change =>
    unfold Session.change Session.modify
    dsimp only
    split
    · exact C.refl s
    · exact C.update h W i _
  | retract i =>
    have ho := h.synchronize W
    unfold Session.change Session.retract
    dsimp only
    split
    · next hlive =>
      obtain ⟨entry, he⟩ := WorkingMemory.contains_iff.1 hlive
      exact C.trans (C.synchronize h W) (C.remove ho.steady (ho.wellFormed W) he)
    · exact C.synchronize h W
  | advance span => exact C.advance h W span

end Conveys

/-! ## Alterations -/

/-- Facts and matches have changed together, and the agenda does not know yet. The matches on the way to
    the turn were made with the facts as they were, and those from there on with the facts as they are. -/
inductive Alters (s : Session) : Matching → Session → Prop
  | removed {i : Handle} {entry : Entry} {store : WorkingMemory}
    (he : s.store.entry? i = some entry) (hr : s.store.remove? i = .ok (entry, store)) :
    Alters s (s.matching.retract s.network s.store i) { s with
      store
      matching := s.matching.retract s.network s.store i
      expiry := s.expiry.cancel i
      journal := s.journal.push (.retracted i entry.fact) }
  | windows (now : Moment) :
    Alters s s.matching { s with matching := s.matching.expireWindows s.network s.store now }
  | received {fact : Fact} {type : FactType} {store : WorkingMemory}
    (hc : s.checkFact fact = .ok type) (hs : s.store.insert fact (type.moment fact s.now) = store) :
    Alters s s.matching { s with
      store
      matching := s.matching.assert s.network store s.store.nextHandle s.now
      expiry := s.expiry.plan type s.store.nextHandle (type.moment fact s.now)
      journal := s.journal.push (.inserted s.store.nextHandle fact) }
  | exchanged {i : Handle} {entry : Entry} {fact : Fact} {type : FactType} {store : WorkingMemory}
    (he : s.store.entry? i = some entry) (ht : entry.fact.type = fact.type)
    (hc : s.checkFact fact = .ok type)
    (hr : s.store.replace? i fact (type.moment fact entry.moment) = .ok (entry, store)) :
    Alters s (s.begun.retract s.network s.store i) { s with
      store
      matching := s.exchanged store i
      expiry := if type.moment fact entry.moment = entry.moment then s.expiry
        else s.expiry.plan type i (type.moment fact entry.moment)
      journal := s.journal.push (.updated i entry.fact fact) }

variable {s s' : Session} {mid : Matching}

namespace Alters

/-- The matches are right after an alteration. -/
theorem unapplied (h : s.Alters mid s') (hs : s.Steady) (W : s.network.WellFormed) :
    s.Unapplied s' := by
  cases h with
  | removed he hr => exact hs.unapplied_remove W he hr
  | windows now => exact hs.unapplied_windows W now
  | received hc hstore => exact hs.unapplied_receive W hc hstore
  | exchanged he ht hc hr => exact hs.unapplied_exchange W he ht hc hr

/-- The matches go to the turn by strides. -/
theorem hither (h : s.Alters mid s') : Matching.Course s.network s.matching mid := by
  cases h with
  | removed he hr => exact Matching.course_retract _ _
  | windows now => exact .refl
  | received hc hstore => exact .refl
  | exchanged he ht hc hr =>
    have hbegun : Matching.Course s.network s.matching s.begun := by
      unfold Session.begun
      split
      · exact (Matching.carries_course s.network).write s.matching s.matching.nodes _
      · exact .refl
    exact hbegun.trans (Matching.course_retract _ _)

/-- From the turn on the matches go by strides. -/
theorem onward (h : s.Alters mid s') : Matching.Course s.network mid s'.matching := by
  cases h with
  | removed he hr => exact .refl
  | windows now => exact Matching.course_expireWindows _ _
  | received hc hstore => exact Matching.course_assert _ _ _
  | exchanged he ht hc hr =>
    show Matching.Course s.network _ (s.exchanged _ _)
    unfold Session.exchanged
    dsimp only
    split
    · exact (Matching.course_assert _ _ _).trans ((Matching.carries_course s.network).endUpdate _ _)
    · exact Matching.course_assert _ _ _

/-- What is left at the turn, and is there still in the end, does not rest on facts that change. -/
theorem proceeds (h : s.Alters mid s') (hs : s.Steady) (W : s.network.WellFormed) :
    Matching.Proceeds s.network s.store s'.store mid s'.matching := by
  have U := h.unapplied hs W
  cases h with
  | @removed i entry store he hr =>
    have R := hs.kept.retract W s.quiet_due (WorkingMemory.fact?_eq he) rfl
    obtain ⟨store', hr', -, -, hentry⟩ := WorkingMemory.remove?_live he
    cases hr'.symm.trans hr
    exact proceeds_retracted R s.quiet_due (fun _ _ hl => hl) fun j hj =>
      (hentry j).trans (if_neg (Ne.symm hj))
  | windows now => exact U.proceeds
  | received hc hstore => exact U.proceeds
  | @exchanged i entry fact type store he ht hc hr =>
    obtain ⟨store', hr', -, -, hentry⟩ :=
      WorkingMemory.replace?_live he ht (type.moment fact entry.moment)
    cases hr'.symm.trans hr
    exact (hs.exchanged W he hentry).onward

/-- An alteration tells of no activation, and all else but facts, matches and deadlines stays. -/
theorem aside (h : s.Alters mid s') : s'.base = s.base ∧ s'.settings = s.settings ∧
    s'.agenda = s.agenda ∧ s'.firing = s.firing ∧ ∃ told : List JournalEvent,
      s'.journal.toList = s.journal.toList ++ told ∧
      ∀ event ∈ told, ∀ a, event ≠ .created a ∧ event ≠ .firing a := by
  cases h
  case windows now => exact ⟨rfl, rfl, rfl, rfl, [], (List.append_nil _).symm, nofun⟩
  all_goals
    refine ⟨rfl, rfl, rfl, rfl, _, Array.toList_push, fun event hevent a => ?_⟩
    rw [List.mem_singleton.1 hevent]
    exact ⟨nofun, nofun⟩

end Alters

/-- What holds along every alteration once the agenda knows of it holds along every change. -/
theorem conveys_alters {R : Session → Session → Prop} (hrefl : ∀ s, R s s)
    (htrans : ∀ {s t u}, R s t → R t u → R s u)
    (hbeside : ∀ (s : Session) (clock : Clock) (expiry : ExpirySchedule), R s { s with clock, expiry })
    (halters : ∀ {s mid s'}, s.Steady → s.network.WellFormed → s.Alters mid s' → R s s'.applyEvents) :
    Conveys R where
  refl := hrefl
  trans := htrans
  beside := hbeside
  windows now hs W := halters hs W (.windows now)
  remove hs W he := by
    obtain ⟨store, hremove, -⟩ := WorkingMemory.remove?_live he
    rw [remove_eq hremove]
    exact halters hs W (.removed he hremove)
  receive {s fact type} hs W hc := by
    rw [receive_eq s type fact rfl]
    exact halters hs W (.received hc rfl)
  exchange {s i entry fact type} hs W he ht hc := by
    obtain ⟨store, hreplace, -⟩ :=
      WorkingMemory.replace?_live he ht (type.moment fact entry.moment)
    rw [exchange_eq type hreplace]
    exact halters hs W (.exchanged he ht hc hreplace)

end RuleNet.Session
