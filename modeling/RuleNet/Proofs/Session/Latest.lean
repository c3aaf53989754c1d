/-
  Length windows hold what came last.

  Of two facts, the one was last inserted or updated first that has its present value since a session
  at which the other one did not have its own yet.

  * `Session.Course`: a session with all sessions before it, the latest first.
  * `Session.Precedes`: one fact was last inserted or updated before another one.
  * `Session.Latest`: what is left out came before what is held, and there is no room for it.
  * `Session.length_windows_of_course`: so it is in every session, however its clock runs.
-/
import RuleNet.Proofs.Session.Newest

namespace RuleNet

/-! ## Sessions -/

namespace Session

/-- A session that steps lead to, and all sessions before it, the latest first. -/
inductive Course (base : RuleBase) (settings : Settings) : Session → List Session → Prop
  | start (reading : Moment) : Course base settings (start base settings reading) []
  | step {s t : Session} {past : List Session} (h : Course base settings s past) (hs : Step s t) :
    Course base settings t (s :: past)

variable {base : RuleBase} {settings : Settings} {s t : Session} {past : List Session}
  {a : AlphaId} {alpha : AlphaNode} {capacity : Nat}

/-- Every session that requests lead to has a course. -/
theorem Reached.course (h : Reached base settings s) : ∃ past, Course base settings s past := by
  induction h with
  | start reading => exact ⟨[], .start reading⟩
  | step _ hs ih =>
    obtain ⟨past, hc⟩ := ih
    exact ⟨_, hc.step hs⟩

theorem Course.reached (h : Course base settings s past) : Reached base settings s := by
  induction h with
  | start reading => exact .start reading
  | step _ hs ih => exact ih.step hs

/-- A fact was last inserted or updated before another one: since a session at which the other one
    did not have its present value yet, it has not changed. -/
def Precedes (past : List Session) (s : Session) (h i : Handle) : Prop :=
  ∃ recent t older, past = recent ++ t :: older ∧
    (∀ r ∈ recent ++ [t], r.store.entry? h = s.store.entry? h) ∧
    t.store.entry? i ≠ s.store.entry? i

theorem Precedes.keep {h i : Handle} (hp : Precedes past s h i)
    (hh : t.store.entry? h = s.store.entry? h) (hi : t.store.entry? i = s.store.entry? i) :
    Precedes (s :: past) t h i := by
  obtain ⟨recent, r, older, rfl, hall, hne⟩ := hp
  refine ⟨s :: recent, r, older, rfl, fun u hu => ?_, hi.symm ▸ hne⟩
  rcases List.mem_cons.1 hu with rfl | hu
  · exact hh.symm
  · exact (hall u hu).trans hh.symm

/-- At no step has a fact that qualified gone or changed. -/
def Undisturbed (alpha : AlphaNode) (s : Session) (past : List Session) : Prop :=
  (s :: past).IsChain fun later earlier => ∀ {h entry}, earlier.store.entry? h = some entry →
    alpha.qualifies entry = true → later.store.entry? h = some entry

/-- What the length windows of a session hold. -/
structure Latest (s : Session) (past : List Session) (a : AlphaId) (alpha : AlphaNode)
    (capacity : Nat) : Prop where
  newest : Shelving.Newest alpha (Precedes past s) (s.shelving a)
  size : (s.shelving a).shelf.facts.size ≤ capacity
  full : s.Undisturbed alpha past → Shelving.Full alpha capacity (s.shelving a)

theorem Latest.step (L : s.Latest past a alpha capacity) (hs : Step s t) (h : s.Steady)
    (W : s.network.WellFormed) (ha : s.network.alpha? a = some alpha)
    (hwindow : alpha.window = some (.length capacity)) :
    t.Latest (s :: past) a alpha capacity := by
  rcases hs.turn h W ha with ⟨hsame, -⟩ | hturn
  · have hstore : t.store.entry? = s.store.entry? := congrArg Shelving.stored? hsame
    refine ⟨?_, hsame ▸ L.size, fun hu => hsame ▸ L.full (List.isChain_cons_cons.1 hu).2⟩
    rw [hsame]
    exact L.newest.mono fun _ _ hp => hp.keep (congrFun hstore _) (congrFun hstore _)
  · refine ⟨?_, Shelving.size_turn hwindow L.newest hturn L.size, fun hu => ?_⟩
    · refine L.newest.turn hwindow hturn (fun hh hi hp => hp.keep hh hi) fun {h i} hh hi => ?_
      refine ⟨[], s, past, rfl, fun r hr => ?_, Ne.symm hi⟩
      obtain rfl := List.mem_singleton.1 hr
      exact hh.symm
    · obtain ⟨hstay, hu⟩ := List.isChain_cons_cons.1 hu
      exact (L.full hu).turn L.newest hwindow hturn hstay

/-- Undisturbed, there are as many members as there is room for or as qualify. -/
theorem Latest.size_eq (L : s.Latest past a alpha capacity) (hu : s.Undisturbed alpha past) :
    (s.matching.alpha a).facts.size = min capacity (s.store.qualified alpha).length := by
  have hsize : (s.matching.alpha a).facts.size ≤ capacity := L.size
  have hmembers : (s.matching.alpha a).facts.toList ⊆ s.store.qualified alpha := fun h hh =>
    WorkingMemory.mem_qualified.2 (L.newest.members (Std.ExtTreeSet.mem_toList.1 hh))
  have hle := (IdSet.nodup_toList _).length_le_of_subset hmembers
  rw [Std.ExtTreeSet.length_toList] at hle
  rcases Nat.lt_or_ge (s.matching.alpha a).facts.size capacity with hroom | hfull
  · have hall : s.store.qualified alpha ⊆ (s.matching.alpha a).facts.toList := fun h hh => by
      obtain ⟨entry, he, hqual⟩ := WorkingMemory.mem_qualified.1 hh
      exact Std.ExtTreeSet.mem_toList.2 (L.full hu hroom he hqual)
    have hge := WorkingMemory.nodup_qualified.length_le_of_subset hall
    rw [Std.ExtTreeSet.length_toList] at hge
    omega
  · omega

/-- The length windows of every session hold what came last. -/
theorem Course.latest (W : base.network.WellFormed) (h : Course base settings s past)
    (ha : base.network.alpha? a = some alpha) (hwindow : alpha.window = some (.length capacity)) :
    s.Latest past a alpha capacity := by
  induction h with
  | start reading =>
    have hstart := @Session.shelving_start base settings reading a
    refine ⟨hstart ▸ .empty, ?_, fun _ => ?_⟩
    · rw [hstart]
      exact Nat.zero_le _
    · rw [hstart]
      intro _ h entry he
      cases he
  | step h hs ih =>
    obtain ⟨hsteady, hbase, -⟩ := h.reached.steady W
    exact ih.step hs hsteady (by rw [network, hbase]; exact W) (by rw [network, hbase]; exact ha)
      hwindow

/-- What leaves one memory leaves the other memories as they are. -/
theorem evict_beside {net : Network} {store : WorkingMemory} {b : AlphaId} (hne : b ≠ a)
    (m : Matching) (h : Handle) : (m.evict net store a h).alpha b = m.alpha b := by
  unfold Matching.evict
  split
  · rfl
  · next fact _ =>
    have hleave : (m.leave a h fact).alpha b = m.alpha b := by
      simp only [Matching.leave]
      split
      · rw [Matching.alpha_setAlpha, if_neg (Ne.symm hne)]
      · rfl
    refine Eq.trans (congrArg (fun alphas => (alphas[b]?).getD AlphaMemory.empty) ?_) hleave
    exact ((carries_alphasKept net).release store h _ _ _).alphas

/-- A length window has no more members than it has room for. A live fact that qualifies and is left
    out was last inserted or updated before every member was. While no fact that qualified has gone
    or changed, there are as many members as there is room for or as qualify. What leaves the window
    when another fact comes or changes stays in all other memories and in the store. -/
theorem length_windows_of_course {declarations : Declarations}
    (hb : declarations.build = .ok base) (hs : Course base settings s past)
    (ha : base.network.alpha? a = some alpha) (hwindow : alpha.window = some (.length capacity)) :
    (s.matching.alpha a).facts.size ≤ capacity ∧
    (∀ h i entry, s.store.entry? h = some entry → alpha.qualifies entry = true →
      h ∉ (s.matching.alpha a).facts → i ∈ (s.matching.alpha a).facts → Precedes past s h i) ∧
    (s.Undisturbed alpha past →
      (s.matching.alpha a).facts.size = min capacity (s.store.qualified alpha).length) ∧
    (∀ m h b, b ≠ a → (Matching.evict base.network s.store a m h).alpha b = m.alpha b) ∧
    (∀ fact h entry, s.synchronize.store.entry? h = some entry →
      (s.insert fact).2.store.entry? h = some entry) ∧
    ∀ i fact h entry, h ≠ i → s.synchronize.store.entry? h = some entry →
      (s.update i fact).2.store.entry? h = some entry := by
  have W := Declarations.wellFormed_build hb
  have L := hs.latest W ha hwindow
  obtain ⟨hsteady, hbase, -⟩ := hs.reached.steady W
  have hsync := hsteady.synchronize (by rw [network, hbase]; exact W)
  have W' : s.synchronize.network.WellFormed := by rw [hsync.network, network, hbase]; exact W
  have ha' : s.synchronize.network.alpha? a = some alpha := by
    rw [hsync.network, network, hbase]
    exact ha
  refine ⟨L.size, fun h i entry he hqual hout hin => L.newest.outside he hqual hout hin,
    fun hu => ?_, fun m h b hne => evict_beside hne m h, fun fact h entry he => ?_,
    fun i fact h entry hne he => ?_⟩
  · exact L.size_eq hu
  · unfold Session.insert
    dsimp only
    split
    · exact he
    · next type _ =>
      split
      · exact he
      · have hafter := congrArg Shelving.stored?
          (@shelving_receive _ _ _ hsync.steady type fact ha')
        exact (congrFun hafter h).trans ((if_neg (Nat.ne_of_gt (hsync.steady.fresh he))).trans he)
  · unfold Session.update
    dsimp only
    split
    · exact he
    · next old hold =>
      split
      · exact he
      · next ht =>
        split
        · exact he
        · next type hc =>
          have hafter := congrArg Shelving.stored? (shelving_exchange hsync.steady W' hold
            (Decidable.of_not_not ht) ha' : (s.synchronize.exchange type _ _ _).2.shelving a = _)
          exact (congrFun hafter h).trans ((if_neg (Ne.symm hne)).trans he)

/-- Pairs of the two latest high readings. -/
def highs : Declarations where
  types := [⟨"reading", [("level", .integer)], .event, none, none⟩]
  rules := [⟨"high", 0, mainGroup, false, false, false,
    .pattern ⟨"reading", none, [.compare "level" .greater (.literal (.integer 5))], [],
      some (.length 2)⟩,
    fun _ => .done⟩]
  queries := []

/-- Three high readings come, and a low one between them. -/
def highRun (base : RuleBase) : Session :=
  ((((start base .standard 0).change
    (.insert ⟨"reading", [("level", .integer 9)]⟩)).change
    (.insert ⟨"reading", [("level", .integer 3)]⟩)).change
    (.insert ⟨"reading", [("level", .integer 7)]⟩)).change
    (.insert ⟨"reading", [("level", .integer 8)]⟩)

/-- The first reading is left out, and came before the third one, which is not. -/
theorem length_windows_of_course_highRun : ∃ base, highs.build = .ok base ∧ ∃ past,
    Course base .standard (highRun base) past ∧ ∃ alpha, base.network.alpha? 0 = some alpha ∧
      alpha.window = some (.length 2) ∧ 1 ∉ ((highRun base).matching.alpha 0).facts ∧
      3 ∈ ((highRun base).matching.alpha 0).facts ∧ Precedes past (highRun base) 1 3 := by
  obtain ⟨base, hb, hrun⟩ := Declarations.build_of_passes highs
    (fun base => (base.network.alpha? 0).any fun alpha =>
      alpha.window == some (Window.length 2) &&
        !((highRun base).matching.alpha 0).facts.contains 1 &&
        ((highRun base).matching.alpha 0).facts.contains 3 &&
        ((highRun base).store.entry? 1).any alpha.qualifies) (by decide +kernel)
  obtain ⟨alpha, ha, hrest⟩ := (Option.any_eq_true _ _).1 hrun
  simp only [Bool.and_eq_true, beq_iff_eq, Bool.not_eq_true', ← Bool.not_eq_true,
    Std.ExtTreeSet.contains_iff_mem] at hrest
  obtain ⟨⟨⟨hwindow, hout⟩, hin⟩, hlive⟩ := hrest
  obtain ⟨entry, he, hqual⟩ := (Option.any_eq_true _ _).1 hlive
  have hreached : Reached base .standard (highRun base) :=
    ((((Reached.start 0).change _).change _).change _).change _
  obtain ⟨past, hs⟩ := hreached.course
  obtain ⟨-, horder, -⟩ := length_windows_of_course hb hs ha hwindow
  exact ⟨base, hb, past, hs, alpha, ha, hwindow, hout, hin, horder 1 3 entry he hqual hout hin⟩

end Session

end RuleNet
