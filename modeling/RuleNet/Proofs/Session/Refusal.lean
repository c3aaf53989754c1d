/-
  Requests that are refused.

  A request first lets go what is overdue, and then is checked against the facts that are left. All
  checks come before the first change, so a request that is refused has changed nothing else, and
  one that is not refused goes through.

  * `RuleBase.Unfit`: why a value is no fact of a rule base.
  * `Session.Refuses`: why a request is refused, read off the facts.
  * `Session.exchange_live`, `Session.remove_live`: what has been checked is always carried out.
  * `Session.refused`: a request fails exactly where it is refused, and leaves the synchronised
    session behind.
-/
import RuleNet.Proofs.Network.Compile
import RuleNet.Proofs.Session.Reached

namespace RuleNet

/-- Why a value is no fact of a rule base. -/
inductive RuleBase.Unfit (base : RuleBase) (fact : Fact) : EngineError → Prop
  | undeclared (h : base.type? fact.type = none) :
    base.Unfit fact (.schema fact.type .undeclaredType)
  | defect {type : FactType} {defect : SchemaDefect} (ht : base.type? fact.type = some type)
    (hd : type.check fact = .error defect) : base.Unfit fact (.schema type.name defect)

namespace Session

variable {s t : Session} {e : EngineError} {i : Handle} {fact : Fact}

/-- Why a request is refused. -/
inductive Refuses (s : Session) : Change → EngineError → Prop
  | insert {fact : Fact} {e : EngineError} (h : s.base.Unfit fact e) : s.Refuses (.insert fact) e
  | unknown {i : Handle} {fact : Fact} (h : s.store.entry? i = none) :
    s.Refuses (.update i fact) (.unknownHandle i)
  | typeChange {i : Handle} {fact : Fact} {entry : Entry} (he : s.store.entry? i = some entry)
    (ht : entry.fact.type ≠ fact.type) :
    s.Refuses (.update i fact) (.schema entry.fact.type (.typeChange i fact.type))
  | update {i : Handle} {fact : Fact} {entry : Entry} {e : EngineError}
    (he : s.store.entry? i = some entry) (ht : entry.fact.type = fact.type)
    (h : s.base.Unfit fact e) : s.Refuses (.update i fact) e
  | gone {i : Handle} (h : s.store.entry? i = none) : s.Refuses (.retract i) (.unknownHandle i)

/-! ## What has been checked -/

/-- The check fails with what is wrong. -/
theorem checkFact_eq_error : s.checkFact fact = .error e ↔ s.base.Unfit fact e := by
  unfold checkFact
  constructor
  · intro h
    split at h
    · next hnone =>
      cases h
      exact .undeclared hnone
    · next type htype =>
      split at h
      · next defect hcheck =>
        cases h
        exact .defect htype hcheck
      · cases h
  · intro h
    cases h with
    | undeclared hnone => simp only [hnone]
    | defect htype hcheck => simp only [htype, hcheck]

/-- What has been checked is not unfit. -/
theorem not_unfit {type : FactType} (h : s.checkFact fact = .ok type) : ¬ s.base.Unfit fact e := by
  intro hunfit
  rw [checkFact_eq_error.2 hunfit] at h
  cases h

/-- A live fact is always given a value of its type. -/
theorem exchange_live {entry : Entry} (he : s.store.entry? i = some entry)
    (ht : entry.fact.type = fact.type) (type : FactType) (previous : Moment) :
    (s.exchange type i fact previous).1 = .ok () := by
  obtain ⟨store, hreplace, -⟩ := WorkingMemory.replace?_live he ht (type.moment fact previous)
  rw [exchange_eq type hreplace]

/-- A live fact is always removed. -/
theorem remove_live {entry : Entry} (he : s.store.entry? i = some entry) :
    (s.remove i).1 = .ok entry.fact := by
  obtain ⟨store, hremove, -⟩ := WorkingMemory.remove?_live he
  rw [remove_eq hremove]

theorem contains_eq_false : s.store.contains i = false ↔ s.store.entry? i = none := by
  rw [← Bool.not_eq_true, WorkingMemory.contains_iff, Option.eq_none_iff_forall_ne_some]
  exact not_exists

/-! ## Requests -/

theorem insert_eq_error : s.insert fact = (.error e, t) ↔
    s.synchronize.Refuses (.insert fact) e ∧ t = s.synchronize := by
  have hiff : s.synchronize.Refuses (.insert fact) e ↔ s.synchronize.checkFact fact = .error e := by
    rw [checkFact_eq_error]
    exact ⟨fun h => by cases h; assumption, .insert⟩
  rw [hiff]
  unfold Session.insert
  dsimp only
  split
  · next hcheck =>
    rw [hcheck]
    simp only [Prod.mk.injEq, Except.error.injEq, eq_comm]
  · next hcheck =>
    rw [hcheck]
    split <;> simp

theorem update_eq_error : s.update i fact = (.error e, t) ↔
    s.synchronize.Refuses (.update i fact) e ∧ t = s.synchronize := by
  unfold Session.update
  dsimp only
  split
  · next hnone =>
    constructor
    · intro h
      cases h
      exact ⟨.unknown hnone, rfl⟩
    · rintro ⟨hrefuses, rfl⟩
      cases hrefuses with
      | unknown => rfl
      | typeChange he => simp [hnone] at he
      | update he => simp [hnone] at he
  · next entry he =>
    split
    · next ht =>
      constructor
      · intro h
        cases h
        exact ⟨.typeChange he ht, rfl⟩
      · rintro ⟨hrefuses, rfl⟩
        cases hrefuses with
        | unknown h => simp [he] at h
        | typeChange he' =>
          obtain rfl := Option.some.inj (he.symm.trans he')
          rfl
        | update he' ht' =>
          obtain rfl := Option.some.inj (he.symm.trans he')
          exact absurd ht' ht
    · next ht =>
      have ht := Decidable.of_not_not ht
      split
      · next hcheck =>
        constructor
        · intro h
          cases h
          exact ⟨.update he ht (checkFact_eq_error.1 hcheck), rfl⟩
        · rintro ⟨hrefuses, rfl⟩
          cases hrefuses with
          | unknown h => simp [he] at h
          | typeChange he' ht' =>
            obtain rfl := Option.some.inj (he.symm.trans he')
            exact absurd ht ht'
          | update _ _ hunfit =>
            rw [checkFact_eq_error.2 hunfit] at hcheck
            cases hcheck
            rfl
      · next type hcheck =>
        constructor
        · intro h
          have hok := exchange_live he ht type entry.moment
          rw [h] at hok
          cases hok
        · rintro ⟨hrefuses, -⟩
          cases hrefuses with
          | unknown h => simp [he] at h
          | typeChange he' ht' =>
            obtain rfl := Option.some.inj (he.symm.trans he')
            exact absurd ht ht'
          | update _ _ hunfit => exact absurd hunfit (not_unfit hcheck)

theorem retract_eq_error : s.retract i = (.error e, t) ↔
    s.synchronize.Refuses (.retract i) e ∧ t = s.synchronize := by
  unfold Session.retract
  dsimp only
  split
  · next hlive =>
    obtain ⟨entry, he⟩ := WorkingMemory.contains_iff.1 hlive
    constructor
    · intro h
      have hok := remove_live he
      rw [h] at hok
      cases hok
    · rintro ⟨hrefuses, -⟩
      cases hrefuses with
      | gone hnone => simp [he] at hnone
  · next hlive =>
    have hnone := contains_eq_false.1 (Bool.not_eq_true _ ▸ hlive)
    constructor
    · intro h
      cases h
      exact ⟨.gone hnone, rfl⟩
    · rintro ⟨hrefuses, rfl⟩
      cases hrefuses
      rfl

theorem modify_eq_error {change : Fact → Fact} : s.modify i change = (.error e, t) ↔
    (s.store.entry? i = none ∧ e = .unknownHandle i ∧ t = s) ∨
    ∃ entry, s.store.entry? i = some entry ∧
      s.synchronize.Refuses (.update i (change entry.fact)) e ∧ t = s.synchronize := by
  unfold Session.modify WorkingMemory.fact?
  cases he : s.store.entry? i with
  | none =>
    simp only [Option.map_none, Prod.mk.injEq, Except.error.injEq, true_and, reduceCtorEq,
      false_and, exists_false, or_false, eq_comm]
  | some entry => simp [update_eq_error]

/-- A request fails exactly where it is refused, and then nothing has been done but to let go what is
    overdue. A fact that is not live is not modified, and the session stays as it is. What passes
    the checks is carried out: a live fact is given any value of its type, and is removed. -/
theorem refused (s : Session) :
    (∀ fact e t, s.insert fact = (.error e, t) ↔
      s.synchronize.Refuses (.insert fact) e ∧ t = s.synchronize) ∧
    (∀ i fact e t, s.update i fact = (.error e, t) ↔
      s.synchronize.Refuses (.update i fact) e ∧ t = s.synchronize) ∧
    (∀ i e t, s.retract i = (.error e, t) ↔
      s.synchronize.Refuses (.retract i) e ∧ t = s.synchronize) ∧
    (∀ i change e t, s.modify i change = (.error e, t) ↔
      (s.store.entry? i = none ∧ e = .unknownHandle i ∧ t = s) ∨
      ∃ entry, s.store.entry? i = some entry ∧
        s.synchronize.Refuses (.update i (change entry.fact)) e ∧ t = s.synchronize) ∧
    (∀ i entry, s.store.entry? i = some entry →
      (∀ type fact previous, entry.fact.type = fact.type →
        (∃ store, s.store.replace? i fact (type.moment fact previous) = .ok (entry, store)) ∧
        (s.exchange type i fact previous).1 = .ok ()) ∧
      (∃ store, s.store.remove? i = .ok (entry, store)) ∧
      (s.remove i).1 = .ok entry.fact) := by
  refine ⟨fun _ _ _ => insert_eq_error, fun _ _ _ _ => update_eq_error,
    fun _ _ _ => retract_eq_error, fun _ _ _ _ => modify_eq_error, fun i entry he => ⟨?_, ?_, ?_⟩⟩
  · intro type fact previous ht
    obtain ⟨store, hreplace, -⟩ := WorkingMemory.replace?_live he ht (type.moment fact previous)
    exact ⟨⟨store, hreplace⟩, exchange_live he ht type previous⟩
  · obtain ⟨store, hremove, -⟩ := WorkingMemory.remove?_live he
    exact ⟨store, hremove⟩
  · exact remove_live he

/-- An offer ends after 100 milliseconds. -/
def offers : Declarations where
  types := [⟨"offer", [("price", .integer)], .event, none, some (.ofMillis 100)⟩]
  rules := []
  queries := []

/-- An offer has ended, and is still there. -/
def offersRun (base : RuleBase) : Session :=
  ((start base Settings.standard 0).change (.insert ⟨"offer", [("price", .integer 5)]⟩)).read 200

/-- What is asked of the offer is refused and lets it go, and so does a demand, which is not declared. What
    is asked of an offer that there never was changes nothing. -/
theorem refused_offersRun : ∃ base, offers.build = .ok base ∧
    (offersRun base).store.contains 1 = true ∧
    (offersRun base).synchronize.store.contains 1 = false ∧
    (offersRun base).retract 1 = (.error (.unknownHandle 1), (offersRun base).synchronize) ∧
    (offersRun base).modify 1 id = (.error (.unknownHandle 1), (offersRun base).synchronize) ∧
    (offersRun base).insert ⟨"demand", []⟩ =
      (.error (.schema "demand" .undeclaredType), (offersRun base).synchronize) ∧
    (offersRun base).modify 2 id = (.error (.unknownHandle 2), offersRun base) := by
  obtain ⟨base, hb, hrun⟩ := Declarations.build_of_passes offers (fun base => decide (
    (offersRun base).store.contains 1 = true ∧ (offersRun base).synchronize.store.contains 1 = false ∧
    (offersRun base).store.contains 2 = false ∧
    (offersRun base).synchronize.base.type? "demand" = none)) (by decide +kernel)
  obtain ⟨hlive, hgone, hnever, hundeclared⟩ := of_decide_eq_true hrun
  obtain ⟨entry, he⟩ := WorkingMemory.contains_iff.1 hlive
  have hnone := contains_eq_false.1 hgone
  obtain ⟨hinsert, -, hretract, hmodify, -⟩ := refused (offersRun base)
  exact ⟨base, hb, hlive, hgone, (hretract 1 _ _).2 ⟨.gone hnone, rfl⟩,
    (hmodify 1 id _ _).2 (.inr ⟨entry, he, .unknown hnone, rfl⟩),
    (hinsert _ _ _).2 ⟨.insert (.undeclared hundeclared), rfl⟩,
    (hmodify 2 id _ _).2 (.inl ⟨contains_eq_false.1 hnever, rfl, rfl⟩)⟩

end Session

end RuleNet
