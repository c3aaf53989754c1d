/-
  Coalesced updates leave alone what rests on results that are the same.

  * `Session.Follows.keeps`: an activation stays whose token stands and is not new.
  * `Session.Coalesces`: what an update has done to results, tokens and activations.
  * `Session.coalesced_of_update`: every coalesced update does so whose values enter nothing but memories that
    feed nodes that fold.
-/
import RuleNet.Proofs.Matching.Coalesced
import RuleNet.Proofs.Session.Changes
import RuleNet.Proofs.Session.Recounts
import RuleNet.Proofs.Session.Pending

namespace RuleNet

section
variable {net : Network} {store store' : WorkingMemory} {h : Handle} {m m' : Matching} {n : NodeId}
  {left : TokenId}

/-- Taking the events leaves it open which results are due. -/
theorem Matching.due?_takeEvents :
    ({ m' with events := #[] } : Matching).due? net store n left = m'.due? net store n left :=
  Matching.due?_congr rfl (@Matching.chain_congr m' { m' with events := #[] } rfl left)

/-- It leaves it open which ones are the same. -/
theorem Matching.sameResult_takeEvents :
    Matching.SameResult net store store' h m { m' with events := #[] } n left ↔
      Matching.SameResult net store store' h m m' n left := by
  unfold Matching.SameResult
  rw [Matching.due?_takeEvents]
  exact Iff.rfl

/-- Taking the events leaves results and tokens as they are. -/
theorem Coalesced.takeEvents (C : Coalesced net store store' h m m') (htold : m.events = #[]) :
    Coalesced net store store' h m { m' with events := #[] } := by
  have hremains : ∀ {n left}, m.Remains net { m' with events := #[] } n left ↔
      m.Remains net m' n left := fun {n left} => ⟨fun h => ⟨h.1, h.2, h.3⟩, fun h => ⟨h.1, h.2, h.3⟩⟩
  constructor
  case kept => exact fun hr hs => C.kept (hremains.1 hr) (Matching.sameResult_takeEvents.1 hs)
  case anew =>
    intro n left hr hs
    rw [Matching.due?_takeEvents]
    exact C.anew (hremains.1 hr) fun h => hs (Matching.sameResult_takeEvents.2 h)
  case made => exact C.made
  case stays => exact C.stays
  case silent =>
    intro hall
    obtain ⟨htokens, hnext, -⟩ := C.silent fun hr =>
      Matching.sameResult_takeEvents.1 (hall (hremains.2 hr))
    exact ⟨htokens, hnext, htold.symm⟩

end

/-! ## Activations that stay -/

/-- What has gone and does not come again is not there in the end. -/
theorem Replays.not_after {told after : TerminalId → TokenId → Prop} {events : List MatchEvent}
    (hr : Replays told after events) {τ : TerminalId} {t : TokenId} (hno : ¬ told τ t)
    (hnever : .formed τ t ∉ events) : ¬ after τ t := by
  induction events generalizing told with
  | nil => exact fun h => hno ((hr τ t).2 h)
  | cons event rest ih =>
    have hnever' : .formed τ t ∉ rest := fun h => hnever (List.mem_cons_of_mem event h)
    cases event with
    | formed τ' t' =>
      refine ih hr.2 (fun h => h.elim hno ?_) hnever'
      rintro ⟨rfl, rfl⟩
      exact hnever List.mem_cons_self
    | broken τ' t' => exact ih hr.2 (fun h => hno h.1) hnever'

namespace Session

variable {s s' : Session} {told after : TerminalId → TokenId → Prop} {i : Handle} {fact : Fact}

/-- An activation stays whose token stands in the end and has not come anew. -/
theorem Follows.keeps {events : List MatchEvent} (h : s.Follows told) (hr : Replays told after events)
    {id : ActivationId} {a : Activation} (ha : s.agenda.get? id = some a)
    (hstands : after a.terminal a.token) (hnever : .formed a.terminal a.token ∉ events) :
    (events.foldl applyEvent s).agenda.get? id = some a := by
  induction events generalizing s told with
  | nil => exact ha
  | cons event rest ih =>
    have hnever' : .formed a.terminal a.token ∉ rest := fun h => hnever (List.mem_cons_of_mem event h)
    cases event with
    | formed τ t =>
      refine ih (h.activate hr.1) hr.2 ?_ hnever'
      have hne : id ≠ s.agenda.nextId := Nat.ne_of_lt (h.agenda.fresh ha).2
      change (s.activate τ t).agenda.get? id = some a
      rcases s.activate_cases τ t with ⟨-, heq⟩ | ⟨terminal, rule, -, -, ⟨-, heq⟩ | ⟨-, heq⟩⟩ <;> rw [heq]
      · exact ha
      · exact ha
      · have hget := congrFun (s.get?_enlisted τ t terminal rule) id
        exact hget.trans ((if_neg hne).trans ha)
    | broken τ t =>
      have hother : ¬ (a.terminal = τ ∧ a.token = t) := by
        rintro ⟨rfl, rfl⟩
        exact hr.2.not_after (fun h => h.2 ⟨rfl, rfl⟩) hnever' hstands
      refine ih h.deactivate hr.2 ?_ hnever'
      rcases hc : s.agenda.cancel τ t with ⟨cancelled, agenda⟩
      have hget := (Agenda.drops_cancel h.agenda hc).get?.2 ⟨ha, hother⟩
      change (s.deactivate τ t).agenda.get? id = some a
      unfold Session.deactivate
      simp only [hc]
      split <;> exact hget

/-- Along an alteration an activation stays as long as its token. -/
theorem Alters.waits_iff {mid : Matching} (h : s.Alters mid s') (hs : s.Steady)
    (W : s.network.WellFormed) {id : ActivationId} {a : Activation}
    (ha : s.agenda.get? id = some a) :
    s'.applyEvents.agenda.get? id = some a ↔ s'.matching.Lives a.token := by
  have U := h.unapplied hs W
  have hnet : s'.network = s.network := by rw [network, U.base]
  have hcourse : Matching.Course s.network s.matching s'.matching := h.hither.trans h.onward
  constructor
  · intro hid
    obtain ⟨terminal, rule, -, ⟨o, ho, -⟩, -⟩ := (hs.applyEvents W U).steady.current hid
    rw [(aligned_applyEvents s').matching] at ho
    exact ⟨o, ho⟩
  · rintro ⟨o, ho⟩
    obtain ⟨terminal, rule, hfits, ⟨o', ho', hnode⟩, -⟩ := hs.current ha
    have hlt := hs.kept.sound.forest.lt_next ho'
    obtain rfl := Option.some.inj (ho'.symm.trans (hcourse.survive.2 hlt ho))
    have hr : Replays (s.matching.Stands s.network) (s'.matching.Stands s.network)
        s'.matching.events.toList := U.kept.sound.told
    refine (hs.follows W U).keeps hr ?_ ⟨terminal, hfits.ends, o', ho, hnode⟩ fun hformed => ?_
    · show s'.agenda.get? id = some a
      rw [U.agenda]
      exact ha
    · rcases hcourse.formed_new hformed with hbefore | hnew
      · rw [hs.told] at hbefore
        cases hbefore
      · exact Nat.not_lt.2 hnew hlt

/-! ## Updates -/

/-- What a coalesced update of a fact has done. -/
structure Coalesces (s : Session) (i : Handle) (s' : Session) : Prop where
  results : Coalesced s.network s.store s'.store i s.matching s'.matching
  /-- An activation stays as long as the results above its token do. -/
  activations : ∀ {id a}, s.agenda.get? id = some a → (s'.agenda.get? id = some a ↔
    ∀ t, a.token ∈ s.matching.subtree t → s.matching.CarriesResult s.network t → s'.matching.Lives t)
  /-- Where all results are the same, nothing becomes of the agenda, and nothing is told but the update. -/
  silent : (∀ {n left}, s.matching.Remains s.network s'.matching n left →
      Matching.SameResult s.network s.store s'.store i s.matching s'.matching n left) →
    s'.agenda = s.agenda ∧ ∃ old new, s'.journal = s.journal.push (.updated i old new)

/-- The memories that an update of a fact is about: those that have it, and those that take it with its new
    value. -/
def Enters (s : Session) (i : Handle) (s' : Session) (a : AlphaId) : Prop :=
  i ∈ s.matching.members a ∨
    ∃ entry, s'.store.entry? i = some entry ∧ s.network.takes s.now entry a = true

instance (s : Session) (i : Handle) (s' : Session) (a : AlphaId) : Decidable (s.Enters i s' a) :=
  decidable_of_iff
    (i ∈ s.matching.members a ∨ (s'.store.entry? i).any (s.network.takes s.now · a) = true)
    (or_congr_right (by simp [Option.any_eq_true]))

/-- The nodes tell whether an update is about nothing but memories that feed nodes that fold. -/
theorem onlyFolds_of_enters (hall : s.network.nodes.all (fun node =>
      node.kind.folds || node.kind.feed?.all fun feed => !decide (s.Enters i s' feed.alpha)) = true)
    {a : AlphaId} (ha : s.Enters i s' a) : s.network.OnlyFolds a := by
  rintro n ⟨kind, feed, hk, hf, rfl⟩
  obtain ⟨node, hn, rfl⟩ := Option.map_eq_some_iff.1 hk
  have hnode := Array.all_eq_true_iff_forall_mem.1 hall node (Array.mem_of_getElem? hn)
  rw [hf, Option.all_some, decide_eq_true ha, Bool.not_true, Bool.or_false] at hnode
  rw [hk]
  exact hnode

/-- An update that is not refused exchanges a fact for another one of its type. -/
theorem update_ok (hok : (s.update i fact).1 = .ok ()) : ∃ entry type,
    s.synchronize.store.entry? i = some entry ∧ entry.fact.type = fact.type ∧
    s.synchronize.checkFact fact = .ok type ∧
    s.update i fact = s.synchronize.exchange type i fact entry.moment := by
  unfold Session.update at hok ⊢
  dsimp only at hok ⊢
  split at hok
  · cases hok
  · next entry he =>
    split at hok
    · cases hok
    · next ht =>
      split at hok
      · cases hok
      · next type hc =>
        refine ⟨entry, type, he, Decidable.of_not_not ht, hc, ?_⟩
        simp only [if_neg ht]

/-- A coalesced exchange of a fact that enters nothing but memories that feed nodes that fold. -/
theorem Steady.coalesced_exchanged (h : s.Steady) (W : s.network.WellFormed)
    (hcoalesce : s.settings.updatePolicy = .coalesce) {store : WorkingMemory} {entry entry' : Entry}
    (he : s.store.entry? i = some entry)
    (hentry : ∀ j, store.entry? j = if i = j then some entry' else s.store.entry? j)
    (hleaves : ∀ a, i ∈ s.matching.members a → s.network.OnlyFolds a)
    (henters : ∀ a, s.network.takes s.now entry' a = true → s.network.OnlyFolds a) :
    Coalesced s.network s.store store i s.matching (s.exchanged store i) := by
  have hclose : ∀ a b : Option Value, (a == b) = true → s.settings.updatePolicy.agree a b := by
    intro a b hab
    rw [hcoalesce]
    exact .inr hab
  have hagree : ∀ {a b : Option Value}, s.settings.updatePolicy.agree a b → a = b ∨ (a == b) = true := by
    intro a b hab
    rw [hcoalesce] at hab
    exact hab
  have hexchanged : ((s.matching.beginUpdate.retract s.network s.store i).assert s.network store i
      s.now).endUpdate s.network store = s.exchanged store i := by
    have hpolicy : (s.settings.updatePolicy == .coalesce) = true := by
      rw [hcoalesce]
      rfl
    unfold Session.exchanged Session.begun
    simp only [if_pos hpolicy]
  exact h.kept.coalesced W s.quiet_due Ledger.still_rest (fun _ _ => id) hclose hagree (fun _ _ => id)
    h.direct (WorkingMemory.fact?_eq he) hentry hleaves henters hexchanged

/-- A coalesced update of a fact that enters nothing but memories that feed nodes that fold. -/
theorem Steady.coalesces (h : s.Steady) (W : s.network.WellFormed)
    (hcoalesce : s.settings.updatePolicy = .coalesce) {entry : Entry} {type : FactType}
    (he : s.store.entry? i = some entry) (ht : entry.fact.type = fact.type)
    (hc : s.checkFact fact = .ok type)
    (hfolds : ∀ a, s.Enters i (s.exchange type i fact entry.moment).2 a → s.network.OnlyFolds a) :
    s.Coalesces i (s.exchange type i fact entry.moment).2 := by
  obtain ⟨store, hr, -, -, hentry⟩ := WorkingMemory.replace?_live he ht (type.moment fact entry.moment)
  rw [exchange_eq type hr] at hfolds ⊢
  dsimp only at hfolds ⊢
  obtain ⟨s', hs'⟩ : ∃ s', s' = { s with
    store
    matching := s.exchanged store i
    expiry := if type.moment fact entry.moment = entry.moment then s.expiry
      else s.expiry.plan type i (type.moment fact entry.moment)
    journal := s.journal.push (.updated i entry.fact fact) } := ⟨_, rfl⟩
  have hA : s.Alters (s.begun.retract s.network s.store i) s' := hs' ▸ .exchanged he ht hc hr
  have hstore : s'.store = store := hs' ▸ rfl
  rw [← hs'] at hfolds ⊢
  have A := aligned_applyEvents s'
  have C : Coalesced s.network s.store s'.store i s.matching s'.matching := by
    have C := h.coalesced_exchanged W hcoalesce he hentry (fun a ha => hfolds a (.inl ha))
      fun a ha => hfolds a (.inr ⟨_, by rw [A.store, hstore, hentry, if_pos rfl], ha⟩)
    rw [hs']
    exact C
  constructor
  case results =>
    rw [A.store, A.matching]
    exact C.takeEvents h.told
  case activations =>
    intro id a ha
    obtain ⟨terminal, rule, -, ⟨o, ho, -⟩, -⟩ := h.current ha
    have hcourse : Matching.Course s.network s.matching s'.matching := hA.hither.trans hA.onward
    have hstands : s'.matching.Lives a.token ↔ s'.matching.origin? a.token = some o := by
      refine ⟨?_, fun ho' => ⟨o, ho'⟩⟩
      rintro ⟨o', ho'⟩
      have hbefore := hcourse.survive.2 (h.kept.sound.forest.lt_next ho) ho'
      rw [ho', ← hbefore, ho]
    rw [hA.waits_iff h W ha, A.matching]
    exact hstands.trans (C.stays ho)
  case silent =>
    intro hall
    rw [A.store, A.matching] at hall
    obtain ⟨-, -, hevents⟩ := C.silent fun hr =>
      Matching.sameResult_takeEvents.1 (hall ⟨hr.folds, hr.before, hr.after⟩)
    rw [applyEvents_eq (hevents.trans h.told), hs']
    exact ⟨rfl, entry.fact, fact, rfl⟩

/-- A coalesced update leaves alone what rests on results that are the same. Once what is overdue has gone, a
    fact gets another value, and neither value enters a memory that feeds a node that does not fold. -/
theorem coalesced_of_update {declarations : Declarations} {base : RuleBase} {settings : Settings}
    (hb : declarations.build = .ok base) (hr : Reached base settings s)
    (hcoalesce : settings.updatePolicy = .coalesce) (hok : (s.update i fact).1 = .ok ())
    (hfolds : ∀ a, s.synchronize.Enters i (s.update i fact).2 a → s.network.OnlyFolds a) :
    s.synchronize.Coalesces i (s.update i fact).2 := by
  have W := Declarations.wellFormed_build hb
  obtain ⟨h, hbase, hsettings⟩ := hr.steady W
  have W : s.network.WellFormed := by
    rw [network, hbase]
    exact W
  have O := h.synchronize W
  obtain ⟨entry, type, he, ht, hc, heq⟩ := update_ok hok
  rw [heq] at hfolds ⊢
  refine O.steady.coalesces (O.wellFormed W) ?_ he ht hc fun a ha => ?_
  · rw [O.settings, hsettings]
    exact hcoalesce
  · rw [O.network]
    exact hfolds a ha

/-- The lowest of all readings, and for every ward how many checks have been passed. -/
def checks : Declarations where
  types := [⟨"ward", [("id", .integer)], .fact, none, none⟩,
    ⟨"reading", [("level", .double)], .fact, none, none⟩,
    ⟨"check", [("at", .integer), ("ok", .integer)], .event, some "at", some (.ofMillis 10)⟩]
  rules := [
    ⟨"lowest", 0, mainGroup, false, false, false,
      .accumulate ⟨⟨"reading", none, [], [], none⟩, .least "level", "low", none⟩, fun _ => .done⟩,
    ⟨"passed", 0, mainGroup, false, false, false, .all [.pattern ⟨"ward", none, [], [("x", "id")], none⟩,
      .accumulate ⟨⟨"check", none, [.compare "ok" .equal (.literal (.integer 1))], [], none⟩, .count, "n",
        none⟩], fun _ => .done⟩]
  queries := []

def check (moment ok : Int64) : Fact := ⟨"check", [("at", .integer moment), ("ok", .integer ok)]⟩

/-- A ward, a reading that is not a number, and a check that has not been passed. -/
def checksRun (base : RuleBase) : Session :=
  [.insert ⟨"ward", [("id", .integer 7)]⟩, .insert ⟨"reading", [("level", .double .nan)]⟩,
    .insert (check 0 0)].foldl Session.change
    (start base { Settings.standard with clock := .manual, updatePolicy := .coalesce } 0)

theorem reached_checksRun (base : RuleBase) :
    Reached base { Settings.standard with clock := .manual, updatePolicy := .coalesce } (checksRun base) :=
  List.foldlRecOn _ Session.change (motive := Reached base _) (.start 0) fun _ h c _ => h.change c

/-- The check is passed after all. -/
theorem coalesces_checksRun : ∃ base, checks.build = .ok base ∧
    Reached base { Settings.standard with clock := .manual, updatePolicy := .coalesce } (checksRun base) ∧
    ((checksRun base).update 3 (check 0 1)).1 = .ok () ∧
    (∀ a, (checksRun base).synchronize.Enters 3 ((checksRun base).update 3 (check 0 1)).2 a →
      (checksRun base).network.OnlyFolds a) ∧
    (checksRun base).synchronize.Coalesces 3 ((checksRun base).update 3 (check 0 1)).2 := by
  obtain ⟨base, hb, hrun⟩ := Declarations.build_of_passes checks
    (fun base => decide (((checksRun base).update 3 (check 0 1)).1 = .ok ()) &&
      decide ((checksRun base).synchronize.network.nodes.all (fun node => node.kind.folds ||
        node.kind.feed?.all fun feed => !decide ((checksRun base).synchronize.Enters 3
          ((checksRun base).update 3 (check 0 1)).2 feed.alpha)) = true))
    (by decide +kernel)
  obtain ⟨hok, hall⟩ := Bool.and_eq_true_iff.1 hrun
  have hok := of_decide_eq_true hok
  have hfolds : ∀ a, (checksRun base).synchronize.Enters 3 ((checksRun base).update 3 (check 0 1)).2 a →
      (checksRun base).network.OnlyFolds a := by
    have W := Declarations.wellFormed_build hb
    obtain ⟨h, hbase, -⟩ := (reached_checksRun base).steady W
    have O := h.synchronize (by rw [network, hbase]; exact W)
    rw [← O.network]
    exact fun a => onlyFolds_of_enters (of_decide_eq_true hall)
  exact ⟨base, hb, reached_checksRun base, hok, hfolds,
    coalesced_of_update hb (reached_checksRun base) rfl hok hfolds⟩

/-- A check that has been passed comes, and is overdue. -/
def overdueRun (base : RuleBase) : Session := (checksRun base).change (.insert (check (-100) 1))

/-- Results are not left alone just when they equal what they were before the request. The lowest reading is
    no number and does not equal itself, and yet its token stays, since the update is not about it. As many
    checks have been passed afterwards as before, and yet the token of the count has gone, since the overdue
    check went first. -/
theorem overdueRun_renews : ∃ base, checks.build = .ok base ∧
    Reached base { Settings.standard with clock := .manual, updatePolicy := .coalesce } (overdueRun base) ∧
    let s := overdueRun base
    let s' := (s.update 3 (check 0 1)).2
    (s.update 3 (check 0 1)).1 = .ok () ∧ (∀ a, s.Enters 3 s' a → s.network.OnlyFolds a) ∧
    (s.matching.Remains s.network s'.matching 0 rootToken ∧
      (s.matching.due? s.network s.store 0 rootToken ==
        s'.matching.due? s.network s'.store 0 rootToken) = false ∧
      ∃ t, (s.matching.about 0 rootToken).output = some t ∧ s'.matching.Lives t) ∧
    s.matching.Remains s.network s'.matching 2 1 ∧
    (s.matching.due? s.network s.store 2 1 == s'.matching.due? s.network s'.store 2 1) = true ∧
    ∃ t, (s.matching.about 2 1).output = some t ∧ ¬ s'.matching.Lives t := by
  obtain ⟨base, hb, hrun⟩ := Declarations.build_of_passes checks
    (fun base => let s := overdueRun base
      let s' := (s.update 3 (check 0 1)).2
      decide ((s.update 3 (check 0 1)).1 = .ok ()) &&
      decide (s.network.nodes.all (fun node => node.kind.folds ||
        node.kind.feed?.all fun feed => !decide (s.Enters 3 s' feed.alpha)) = true) &&
      decide (s.matching.Remains s.network s'.matching 0 rootToken ∧
        (s.matching.due? s.network s.store 0 rootToken ==
          s'.matching.due? s.network s'.store 0 rootToken) = false ∧
        (s.matching.about 0 rootToken).output = some 3 ∧ s'.matching.Lives 3) &&
      decide (s.matching.Remains s.network s'.matching 2 1 ∧
        (s.matching.due? s.network s.store 2 1 == s'.matching.due? s.network s'.store 2 1) = true ∧
        (s.matching.about 2 1).output = some 4 ∧ ¬ s'.matching.Lives 4))
    (by decide +kernel)
  simp only [Bool.and_eq_true, decide_eq_true_iff] at hrun
  obtain ⟨⟨⟨hok, hall⟩, hlow, hunequal, hout, hstays⟩, hcount, hequal, hout', hgone⟩ := hrun
  exact ⟨base, hb, (reached_checksRun base).change _, hok, fun a => onlyFolds_of_enters hall,
    ⟨hlow, hunequal, 3, hout, hstays⟩, hcount, hequal, 4, hout', hgone⟩

end Session

end RuleNet
