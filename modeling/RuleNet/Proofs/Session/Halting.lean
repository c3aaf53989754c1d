/-
  Whatever is asked of a session's matching, its work ends.

  * `Life.Poised`: all that the end of work rests on; `Life.poised_of_later`: it is there at any time.
  * `Life.Halts`: every call that may come now has one end, and that is the matching that the call gives.
  * `Session.halts_of_life`: a compiled network is a forest, and every call on it ends.
-/
import RuleNet.Proofs.Matching.Halting
import RuleNet.Proofs.Network.Shape
import RuleNet.Proofs.Session.Life
import RuleNet.Proofs.Session.Pending

namespace RuleNet

/-- Tasks that end have one end. -/
theorem Yields.runs_iff {net : Network} {store : WorkingMemory} {ts : List Task} {m m' : Matching}
    (h : Yields net store ts m m') (m'' : Matching) : Runs net store ts m m'' ↔ m'' = m' :=
  ⟨fun h' => h'.unique h.runs, fun heq => heq ▸ h.runs⟩

namespace Life

variable {net : Network} {l l' : Life}

/-! ## Facts that are about to come -/

/-- Memories hold what they should once working memory has a new fact. -/
theorem Right.inserted (R : l.Right net) (fact : Fact) (moment : Moment) :
    Stocked net (l.store.insert fact moment) l.matching := by
  obtain ⟨_, -, k⟩ := R.kept
  have k₁ := kept_of_same k R.next_not_mem fun i hne =>
    (l.store.entry?_insert fact moment i).trans (if_neg hne)
  exact k₁.stocked

/-- So they do once the fact that has left has its new value. -/
theorem Right.replaced (R : l.Right net) {h : Handle} (hleaving : l.leaving = some h)
    {fact : Fact} {moment : Moment} {entry : Entry} {store : WorkingMemory}
    (hr : l.store.replace? h fact moment = .ok (entry, store)) : Stocked net store l.matching := by
  obtain ⟨_, -, k⟩ := R.kept
  obtain ⟨-, -, hentry⟩ := WorkingMemory.replace?_ok hr
  have k₁ := kept_of_same k (R.leaving hleaving) fun i hne => (hentry i).trans (if_neg hne)
  exact k₁.stocked

/-! ## What the end of work rests on -/

/-- Nothing refers to what is yet to be made, and windows are in order. -/
structure Poised (net : Network) (l : Life) : Prop where
  layered : l.matching.Layered
  ordered : ∀ {a alpha}, net.alpha? a = some alpha → (l.matching.shelf a).Ordered

theorem Poised.of_alphas (P : l.Poised net) (L : l'.matching.Layered)
    (halphas : l'.matching.alphas = l.matching.alphas) : l'.Poised net :=
  ⟨L, fun ha => Matching.shelf_congr halphas _ ▸ P.ordered ha⟩

section
variable (W : net.WellFormed)
include W

theorem poised_start (mode : IdentityMode) : (start net mode).Poised net := by
  refine ⟨?_, fun {a alpha} _ => ?_⟩
  · have L : (Matching.empty.note
        (net.rootTerminals.map fun τ => .formed τ rootToken)).Layered :=
      Matching.layered_empty.congr rfl rfl rfl rfl
    have hroots := @Yields.each net (.empty mode) _ _ (.arrive · rootToken)
      (fun m n => m.activateLeft net (.empty mode) n rootToken) net.rootChildren L
      fun n _ m' L' hle => yields_arrive W L' (Nat.lt_of_lt_of_le Nat.one_pos hle) n
    exact hroots.layered
  · show (Matching.shelf (Matching.start net (.empty mode)) a).Ordered
    rw [Matching.shelf_congr (AlphasKept.start net (.empty mode)).alphas a]
    exact .empty

/-- A fact that is in no memory comes. -/
theorem Poised.assert (P : l.Poised net) {store : WorkingMemory} (K : Stocked net store l.matching)
    {h : Handle} {entry : Entry} (he : store.entry? h = some entry)
    (hno : ∀ a, h ∉ l.matching.members a) {now : Moment}
    (hl' : l'.matching = l.matching.assert net store h now) : l'.Poised net := by
  refine ⟨hl' ▸ (yields_assert W P.layered K P.ordered hno now).layered, fun {a alpha} ha => ?_⟩
  rw [hl', Matching.shelf_assert K he now ha]
  exact (P.ordered ha).receive (hno a) alpha now entry

/-- A call keeps what the end of work rests on. -/
theorem Step.poised (h : Step net l l') (R : l.Right net) (P : l.Poised net) : l'.Poised net := by
  obtain ⟨_, -, k⟩ := R.kept
  cases h with
  | insert fact moment now hidle =>
    exact P.assert W (R.inserted fact moment) ((l.store.entry?_insert fact moment _).trans (if_pos rfl))
      R.next_not_mem rfl
  | @retract h entry hidle he =>
    refine ⟨(yields_retract W P.layered h).layered, fun {a alpha} ha => ?_⟩
    show ((l.matching.retract net l.store h).shelf a).Ordered
    rw [Matching.shelf_retract k.housed (WorkingMemory.fact?_eq he)]
    exact (P.ordered ha).take h
  | remove hleaving hr => exact ⟨P.layered, P.ordered⟩
  | @replace h fact moment now entry store hleaving hr =>
    obtain ⟨-, -, hentry⟩ := WorkingMemory.replace?_ok hr
    exact P.assert W (R.replaced hleaving hr) ((hentry h).trans (if_pos rfl)) (R.leaving hleaving) rfl
  | expire now hidle =>
    refine ⟨(yields_expireWindows W P.layered now).layered, fun {a alpha} ha => ?_⟩
    show ((l.matching.expireWindows net l.store now).shelf a).Ordered
    rw [Matching.shelf_expireWindows k.stocked now ha]
    exact (P.ordered ha).expire alpha now
  | beginUpdate =>
    refine P.of_alphas (P.layered.defer fun {dirty} h result hr => ?_) rfl
    cases hd : l.matching.deferred with
    | none =>
      rw [hd] at h
      obtain rfl := Option.some.inj h
      exact absurd hr Std.ExtTreeSet.not_mem_empty
    | some marks =>
      rw [hd] at h
      obtain rfl := Option.some.inj h
      exact P.layered.marked hd result hr
  | endUpdate hidle =>
    exact P.of_alphas (yields_endUpdate W P.layered).layered
      ((carries_alphasKept net).endUpdate l.store l.matching).alphas
  | take => exact P.of_alphas (P.layered.congr rfl rfl rfl rfl) rfl

/-- It is there at any time. -/
theorem poised_of_later {mode : IdentityMode} (h : Later net (start net mode) l) : l.Poised net := by
  induction h with
  | refl => exact poised_start W mode
  | tail hway hstep ih => exact hstep.poised W (right_of_later W hway) ih

end

/-! ## Calls that end -/

/-- Every call that may come now has one end, and that is the matching that the call gives. -/
structure Halts (net : Network) (l : Life) : Prop where
  /-- A new fact comes. -/
  insert : ∀ fact moment now m',
    Runs net (l.store.insert fact moment) [.assert l.store.nextHandle now] l.matching m' ↔
      m' = l.matching.assert net (l.store.insert fact moment) l.store.nextHandle now
  /-- The fact that has left comes back with another value. -/
  replace : ∀ {h fact moment entry store}, l.leaving = some h →
    l.store.replace? h fact moment = .ok (entry, store) → ∀ now m',
      Runs net store [.assert h now] l.matching m' ↔ m' = l.matching.assert net store h now
  retract : ∀ h m', Runs net l.store [.retract h] l.matching m' ↔
    m' = l.matching.retract net l.store h
  expire : ∀ now m', Runs net l.store [.expireWindows now] l.matching m' ↔
    m' = l.matching.expireWindows net l.store now
  endUpdate : ∀ m', Runs net l.store [.endUpdate] l.matching m' ↔
    m' = l.matching.endUpdate net l.store

theorem Poised.halts (W : net.WellFormed) (P : l.Poised net) (R : l.Right net) : l.Halts net where
  insert fact moment now := (yields_assert W P.layered (R.inserted fact moment) P.ordered
    R.next_not_mem now).runs_iff
  replace hleaving hr now := (yields_assert W P.layered (R.replaced hleaving hr) P.ordered
    (R.leaving hleaving) now).runs_iff
  retract h := (yields_retract W P.layered h).runs_iff
  expire now := (yields_expireWindows W P.layered now).runs_iff
  endUpdate := (yields_endUpdate W P.layered).runs_iff

end Life

namespace Session

variable {declarations : Declarations} {base : RuleBase}

/-- However many rules and queries share it, a network that compiles is a forest whose lists are complete and
    without repetition, and every call ends on it, at any time of a matching's life. The matching of a
    session leads such a life. -/
theorem halts_of_life (hb : declarations.build = .ok base) :
    base.network.Shaped ∧
    (∀ {mode l}, Life.Later base.network (.start base.network mode) l → l.Halts base.network) ∧
    ∀ {settings s}, Reached base settings s →
      ∃ told, Life.Later base.network (.start base.network settings.identityMode) (s.life told) := by
  have W := Declarations.wellFormed_build hb
  exact ⟨Declarations.shaped_build hb, fun h => (Life.poised_of_later W h).halts W
    (Life.right_of_later W h), life_of_reached W⟩

/-- A strong gust is answered with the number of gusts, both of the latest two. -/
def squalls : Declarations where
  types := [⟨"gust", [("force", .integer)], .event, none, none⟩]
  rules := [⟨"squall", 0, mainGroup, false, false, false,
    .all [.pattern ⟨"gust", none, [.compare "force" .greater (.literal (.integer 5))], [],
        some (.length 2)⟩,
      .accumulate ⟨⟨"gust", none, [], [], some (.length 2)⟩, .count, "n", none⟩], fun _ => .done⟩]
  queries := []

/-- Two gusts come, and with each of them both windows are filled. -/
def squallsRun (base : RuleBase) : Session :=
  ((start base { Settings.standard with clock := .manual } 0).change
    (.insert ⟨"gust", [("force", .integer 6)]⟩)).change
    (.insert ⟨"gust", [("force", .integer 8)]⟩)

/-- The third gust finds both windows full, and what follows it ends. Then the latest two are in them, and of
    ten tokens that were made five are left: the root, both gusts and the number for each. -/
theorem halts_of_life_squallsRun : ∃ base, squalls.build = .ok base ∧ base.network.Shaped ∧
    Reached base { Settings.standard with clock := .manual } (squallsRun base) ∧
    (∃ told, Life.Later base.network (.start base.network .identity) ((squallsRun base).life told)) ∧
    ∃ m, Runs base.network
        ((squallsRun base).store.insert ⟨"gust", [("force", .integer 7)]⟩ 0)
        [.assert (squallsRun base).store.nextHandle 0] (squallsRun base).matching m ∧
      (m.alpha 0).facts.toList = [2, 3] ∧ (m.alpha 1).facts.toList = [2, 3] ∧
      m.tokenCount = 5 ∧ m.nextToken = 10 := by
  obtain ⟨base, hb, hrun⟩ := Declarations.build_of_passes squalls (fun base =>
    let m := (squallsRun base).matching.assert base.network
      ((squallsRun base).store.insert ⟨"gust", [("force", .integer 7)]⟩ 0)
      (squallsRun base).store.nextHandle 0
    decide ((m.alpha 0).facts.toList = [2, 3] ∧ (m.alpha 1).facts.toList = [2, 3] ∧
      m.tokenCount = 5 ∧ m.nextToken = 10)) (by decide +kernel)
  have hs : Reached base { Settings.standard with clock := .manual } (squallsRun base) :=
    ((Reached.start 0).change _).change _
  refine ⟨base, hb, ?_⟩
  generalize squallsRun base = s at hs hrun ⊢
  obtain ⟨hshaped, hlife, hsession⟩ := halts_of_life hb
  obtain ⟨told, hlater⟩ := hsession hs
  exact ⟨hshaped, hs, ⟨told, hlater⟩, _, ((hlife hlater).insert _ 0 0 _).2 rfl,
    of_decide_eq_true hrun⟩

end Session

end RuleNet
