/-
  How nodes take what comes and goes, for left tokens that stay.

  * `NodeKind.Knows`: the facts that go with a left token, as far as its node knows.
  * `NodeKind.Turned`: what a node other than a join does once other facts go with a left token.
  * `Matching.Lost`, `Matching.Gained`: facts have gone, or one has come.
  * `Matching.Loses`, `Matching.Gains`: steps at one spot, where that may happen.
  * `Matching.Tidy.part`, `Matching.Tidy.meet`: these are what happens when a fact leaves or enters.
-/
import RuleNet.Proofs.Matching.Prune

namespace RuleNet

open Matching (Extension contribution)

theorem IdSet.exists_mem {set : IdSet} (h : set.isEmpty = false) : ∃ i, i ∈ set :=
  Classical.byContradiction fun hno =>
    Bool.false_ne_true (h.symm.trans (IdSet.isEmpty_iff_forall.2 fun i hi => hno ⟨i, hi⟩))

/-! ## What nodes know -/

/-- A fact goes with a left token, as far as a node other than a join knows. -/
def NodeKind.Knows (kind : NodeKind) (r : LeftRecord) (h : Handle) : Prop := match kind with
  | .accumulate _ _ _ => ∃ acc, r.accumulator = some acc ∧ acc.contains h = true
  | _ => ∃ facts, r.found = some facts ∧ h ∈ facts

namespace Matching

/-- What a node passed on for a left token has been left as it was. -/
def KeepsOutput (m m' : Matching) (n : NodeId) (left : TokenId) : Prop :=
  (m'.about n left).output = (m.about n left).output ∧
    ∀ t, (m.about n left).output = some t → m'.origin? t = m.origin? t

/-- What a node has passed on for a left token it has passed on since. -/
def NewOutput (m m' : Matching) (n : NodeId) (left : TokenId) : Prop :=
  ∀ t, (m'.about n left).output = some t → m.nextToken ≤ t

/-- The result that stands for a left token is the one that was due when it was made. -/
def Exact (store : WorkingMemory) (having : Option (Operator × TestOperand Place)) (m : Matching)
    (n : NodeId) (left : TokenId) : Prop :=
  ∃ c acc, Later c m ∧ left < c.nextToken ∧ (m.about n left).accumulator = some acc ∧
    m.standing? n left = c.gatedResult? store having left acc

end Matching

/-- What a node other than a join does once other facts go with a left token. -/
def NodeKind.Turned (kind : NodeKind) (store : WorkingMemory) (m m' : Matching) (n : NodeId)
    (left : TokenId) : Prop := match kind with
  | .join _ | .predicate _ _ => False
  | .absent _ => True
  | .present _ =>
    (∀ h, kind.Knows (m.about n left) h → kind.Knows (m'.about n left) h →
      m.KeepsOutput m' n left) ∧
    ((∀ h, kind.Knows (m.about n left) h → ¬ kind.Knows (m'.about n left) h) →
      m.NewOutput m' n left)
  | .accumulate _ _ having =>
    (m.deferred.isSome = true → m.KeepsOutput m' n left ∧ (m'.about n left).marked = true) ∧
    (m.deferred.isSome = false → m.NewOutput m' n left ∧ m'.Exact store having n left)

section
variable {net : Network} {store : WorkingMemory} {m m' m'' : Matching} {n : NodeId}
  {left : TokenId} {kind : NodeKind}

theorem Matching.Unmoved.keeps (h : m.Unmoved m' n left) : m.KeepsOutput m' n left :=
  ⟨congrArg LeftRecord.output h.1, h.2⟩

theorem Matching.KeepsOutput.trans (h : m.KeepsOutput m' n left) (h' : m'.KeepsOutput m'' n left) :
    m.KeepsOutput m'' n left :=
  ⟨h'.1.trans h.1, fun t ht => (h'.2 t (h.1.trans ht)).trans (h.2 t ht)⟩

theorem Matching.NewOutput.before (h : m'.NewOutput m'' n left) (hl : Later m m') :
    m.NewOutput m'' n left := fun t ht => Nat.le_trans hl.next (h t ht)

theorem Matching.Exact.after {having : Option (Operator × TestOperand Place)}
    (h : m.Exact store having n left) (hl : Later m m') (hu : m.Unmoved m' n left) :
    m'.Exact store having n left := by
  obtain ⟨c, acc, hc, hlt, hacc, hstand⟩ := h
  exact ⟨c, acc, hc.trans hl, hlt, by rw [hu.1]; exact hacc, hu.standing.trans hstand⟩

/-- What happens after a node has left all as it was. -/
theorem NodeKind.Turned.before (h : kind.Turned store m' m'' n left) (hl : Later m m')
    (hu : m.Unmoved m' n left) : kind.Turned store m m'' n left := by
  cases kind with
  | join feed => exact h
  | absent feed => trivial
  | present feed =>
    refine ⟨fun i hi hi' => hu.keeps.trans (h.1 i (by rw [hu.1]; exact hi) hi'), fun hno => ?_⟩
    exact (h.2 fun i hi => hno i (by rw [hu.1] at hi; exact hi)).before hl
  | accumulate feed fold having =>
    refine ⟨fun hd => ?_, fun hd => ?_⟩
    · obtain ⟨hkeep, hmark⟩ := h.1 (hl.deferring.trans hd)
      exact ⟨hu.keeps.trans hkeep, hmark⟩
    · obtain ⟨hnew, hexact⟩ := h.2 (hl.deferring.trans hd)
      exact ⟨hnew.before hl, hexact⟩
  | predicate p scope => exact h

/-- After a node has turned, it may leave all as it is. -/
theorem NodeKind.Turned.after (h : kind.Turned store m m' n left) (hl : Later m' m'')
    (hu : m'.Unmoved m'' n left) : kind.Turned store m m'' n left := by
  have hnew : m.NewOutput m' n left → m.NewOutput m'' n left := fun hn t ht =>
    hn t (by rw [hu.1] at ht; exact ht)
  cases kind with
  | join feed => exact h
  | absent feed => trivial
  | present feed =>
    refine ⟨fun i hi hi' => (h.1 i hi (by rw [hu.1] at hi'; exact hi')).trans hu.keeps, fun hno => ?_⟩
    exact hnew (h.2 fun i hi hi' => hno i hi (by rw [hu.1]; exact hi'))
  | accumulate feed fold having =>
    refine ⟨fun hd => ?_, fun hd => ?_⟩
    · obtain ⟨hkeep, hmark⟩ := h.1 hd
      exact ⟨hkeep.trans hu.keeps, by rw [hu.1]; exact hmark⟩
    · obtain ⟨hn, hexact⟩ := h.2 hd
      exact ⟨hnew hn, hexact.after hl hu⟩
  | predicate p scope => exact h

/-- A node turns once when facts go and once when others come. -/
theorem NodeKind.Turned.trans (h : kind.Turned store m m' n left)
    (h' : kind.Turned store m' m'' n left) (hl : Later m m')
    (hsub : ∀ i, kind.Knows (m'.about n left) i → kind.Knows (m.about n left) i)
    (hback : ∀ i, kind.Knows (m.about n left) i → kind.Knows (m''.about n left) i →
      kind.Knows (m'.about n left) i) : kind.Turned store m m'' n left := by
  cases kind with
  | join feed => exact h
  | absent feed => trivial
  | present feed =>
    refine ⟨fun i hi hi' => ?_, fun hno => (h'.2 fun i hi => hno i (hsub i hi)).before hl⟩
    have hmid := hback i hi hi'
    exact (h.1 i hi hmid).trans (h'.1 i hmid hi')
  | accumulate feed fold having =>
    refine ⟨fun hd => ?_, fun hd => ?_⟩
    · obtain ⟨hkeep, hmark⟩ := h'.1 (hl.deferring.trans hd)
      exact ⟨(h.1 hd).1.trans hkeep, hmark⟩
    · obtain ⟨hnew, hexact⟩ := h'.2 (hl.deferring.trans hd)
      exact ⟨hnew.before hl, hexact⟩
  | predicate p scope => exact h

end

/-! ## What comes and goes -/

namespace Matching

/-- Facts no longer go with a left token, and its node has turned. -/
def Lost (net : Network) (store : WorkingMemory) (m m' : Matching) : Spots := fun n left =>
  ∃ kind, net.kind? n = some kind ∧
    (∀ i, kind.Knows (m'.about n left) i → kind.Knows (m.about n left) i) ∧
    (∃ i, kind.Knows (m.about n left) i ∧ ¬ kind.Knows (m'.about n left) i) ∧
    kind.Turned store m m' n left

/-- A fact goes with a left token that did not before, and its node has turned. -/
def Gained (net : Network) (store : WorkingMemory) (h : Handle) (m m' : Matching) : Spots :=
  fun n left => ∃ kind, net.kind? n = some kind ∧ (¬ kind.Knows (m.about n left) h →
    (∀ i, kind.Knows (m'.about n left) i ↔ i = h ∨ kind.Knows (m.about n left) i) ∧
    kind.Turned store m m' n left)

/-- Other facts go with a left token, and its node has turned. -/
def Shifted (net : Network) (store : WorkingMemory) (m m' : Matching) : Spots := fun n left =>
  ∃ kind, net.kind? n = some kind ∧
    (∃ i, ¬ (kind.Knows (m.about n left) i ↔ kind.Knows (m'.about n left) i)) ∧
    kind.Turned store m m' n left

variable {net : Network} {store : WorkingMemory} {h : Handle} {m m' m'' : Matching} {n : NodeId}
  {left : TokenId}

theorem Lost.shifted (hs : Lost net store m m' n left) : Shifted net store m m' n left := by
  obtain ⟨kind, hk, -, ⟨i, hi, hno⟩, hturn⟩ := hs
  exact ⟨kind, hk, ⟨i, fun hiff => hno (hiff.1 hi)⟩, hturn⟩

theorem Lost.before (hs : Lost net store m' m'' n left) (hl : Later m m')
    (hu : m.Unmoved m' n left) : Lost net store m m'' n left := by
  obtain ⟨kind, hk, hsub, hgone, hturn⟩ := hs
  rw [hu.1] at hsub hgone
  exact ⟨kind, hk, hsub, hgone, hturn.before hl hu⟩

theorem Lost.after (hs : Lost net store m m' n left) (hl : Later m' m'')
    (hu : m'.Unmoved m'' n left) : Lost net store m m'' n left := by
  obtain ⟨kind, hk, hsub, hgone, hturn⟩ := hs
  rw [← hu.1] at hsub hgone
  exact ⟨kind, hk, hsub, hgone, hturn.after hl hu⟩

theorem Lost.trans (hs : Lost net store m m' n left) (hs' : Lost net store m' m'' n left)
    (hl : Later m m') : Lost net store m m'' n left := by
  obtain ⟨kind, hk, hsub, ⟨i, hi, hno⟩, hturn⟩ := hs
  obtain ⟨kind', hk', hsub', -, hturn'⟩ := hs'
  obtain rfl := Option.some.inj (hk.symm.trans hk')
  exact ⟨kind, hk, fun i hi => hsub i (hsub' i hi), ⟨i, hi, fun h => hno (hsub' i h)⟩,
    hturn.trans hturn' hl hsub fun i _ => hsub' i⟩

theorem Gained.before (hs : Gained net store h m' m'' n left) (hl : Later m m')
    (hu : m.Unmoved m' n left) : Gained net store h m m'' n left := by
  obtain ⟨kind, hk, hs⟩ := hs
  rw [hu.1] at hs
  exact ⟨kind, hk, fun hno => ⟨(hs hno).1, (hs hno).2.before hl hu⟩⟩

theorem Gained.after (hs : Gained net store h m m' n left) (hl : Later m' m'')
    (hu : m'.Unmoved m'' n left) : Gained net store h m m'' n left := by
  obtain ⟨kind, hk, hs⟩ := hs
  rw [← hu.1] at hs
  exact ⟨kind, hk, fun hno => ⟨(hs hno).1, (hs hno).2.after hl hu⟩⟩

theorem Gained.shifted (hs : Gained net store h m m' n left)
    (hno : ∀ kind, net.kind? n = some kind → ¬ kind.Knows (m.about n left) h) :
    Shifted net store m m' n left := by
  obtain ⟨kind, hk, hs⟩ := hs
  obtain ⟨hiff, hturn⟩ := hs (hno kind hk)
  exact ⟨kind, hk, ⟨h, fun heq => hno kind hk (heq.2 ((hiff h).2 (.inl rfl)))⟩, hturn⟩

/-- Facts go, and then one comes that was not there before. -/
theorem Lost.gained (hs : Lost net store m m' n left) (hs' : Gained net store h m' m'' n left)
    (hl : Later m m') (hno : ∀ kind, net.kind? n = some kind → ¬ kind.Knows (m.about n left) h) :
    Shifted net store m m'' n left := by
  obtain ⟨kind, hk, hsub, -, hturn⟩ := hs
  obtain ⟨kind', hk', hs'⟩ := hs'
  obtain rfl := Option.some.inj (hk.symm.trans hk')
  obtain ⟨hiff, hturn'⟩ := hs' fun hi => hno kind hk (hsub h hi)
  refine ⟨kind, hk, ⟨h, fun heq => hno kind hk (heq.2 ((hiff h).2 (.inl rfl)))⟩,
    hturn.trans hturn' hl hsub fun i hi hi' => ((hiff i).1 hi').resolve_left ?_⟩
  rintro rfl
  exact hno kind hk hi

/-! ## Writing down -/

/-- Other facts are found for a left token. -/
theorem put_found (m : Matching) (n : NodeId) (left : TokenId) (facts : IdSet) (foundBy : Index) :
    Writes (.at n left) m (m.setNode n { m.node n with
      found := (m.node n).found.insert left facts, foundBy }) ∧
    (m.setNode n { m.node n with found := (m.node n).found.insert left facts, foundBy }).about n left =
      { m.about n left with found := some facts } := by
  refine ⟨.setNode fun left' hne => ?_, ?_⟩
  · have hne' : ¬ left = left' := fun e => hne e.symm
    simp [NodeMemory.about, Std.ExtTreeMap.getElem?_insert, hne']
  · rw [about_setNode, if_pos rfl]
    simp [NodeMemory.about, about]

/-- Other facts contribute to the result of a left token. -/
theorem put_accumulator (m : Matching) (n : NodeId) (left : TokenId) (acc : Accumulator)
    (foundBy : Index) : Writes (.at n left) m (m.setNode n { m.node n with
      accumulators := (m.node n).accumulators.insert left acc, foundBy }) ∧
    (m.setNode n { m.node n with
      accumulators := (m.node n).accumulators.insert left acc, foundBy }).about n left =
      { m.about n left with accumulator := some acc } := by
  refine ⟨.setNode fun left' hne => ?_, ?_⟩
  · have hne' : ¬ left = left' := fun e => hne e.symm
    simp [NodeMemory.about, Std.ExtTreeMap.getElem?_insert, hne']
  · rw [about_setNode, if_pos rfl]
    simp [NodeMemory.about, about]

/-- A node writes what it likes but its outputs. -/
theorem Tidy.writes (T : m.Tidy) {m₁ : Matching} (hw : Writes (.at n left) m m₁)
    (hout : (m₁.about n left).output = (m.about n left).output) :
    m₁.Tidy ∧ m.KeepsOutput m₁ n left := by
  refine ⟨hw.tidy T fun {n' left' t} ho => ?_, hout, fun t _ => by rw [origin?_congr hw.tokens]⟩
  by_cases hat : Spots.at n left n' left'
  · obtain ⟨rfl, rfl⟩ := hat
    rw [← hout]
    exact ho
  · rw [hw.others hat] at ho
    exact ho

variable (W : net.WellFormed)

section
variable {feed : Feed} {fold : Fold} {having : Option (Operator × TestOperand Place)}
  {acc : Accumulator}
include W

/-- The contributions of a left token have changed, and its node turns. -/
theorem Tidy.refresh (T : m.Tidy) (hk : net.kind? n = some (.accumulate feed fold having))
    (hacc : (m.about n left).accumulator = some acc) (hm' : m.refresh net store n left = m') :
    m'.Tidy ∧ Spares net .none (fun _ _ => .at n left) m m' ∧
    (left < m.nextToken → m'.Lives left → (m'.about n left).accumulator = some acc ∧
      NodeKind.Turned (.accumulate feed fold having) store m m' n left) := by
  cases hd : m.deferred with
  | some dirty =>
    simp only [Matching.refresh, hd] at hm'
    have G := @grows_mark net m n left T dirty hd
    rw [hm'] at G
    have hmarked : m'.about n left = { m.about n left with marked := true } := by
      have hin : (dirty.insert (n, left)).contains (n, left) = true :=
        Std.ExtTreeSet.contains_insert_self
      subst hm'
      simp only [about, isMarked, Option.any_some, hin]
      rfl
    refine ⟨G.tidy, G.toSpares, fun _ _ => ⟨by rw [hmarked]; exact hacc, fun _ => ⟨⟨?_, ?_⟩, ?_⟩, ?_⟩⟩
    · rw [hmarked]
    · intro t ht
      subst hm'
      rfl
    · rw [hmarked]
    · rw [hd]
      exact fun h => Bool.noConfusion h
  | none =>
    have hget : (m.node n).accumulators[left]? = some acc := hacc
    simp only [Matching.refresh, hd, hk, hget] at hm'
    have R := T.renews W (by rw [hk]; rfl) (by rw [hd]; rfl) _ hm'
    refine ⟨R.tidy, R.spares, fun hlt hl => ?_⟩
    obtain ⟨output, habout, hnew⟩ := R.about hlt hl
    have hacc' : (m'.about n left).accumulator = some acc := by rw [habout]; exact hacc
    refine ⟨hacc', fun h => ?_, fun _ => ⟨fun t ht => hnew t ?_, m, acc, R.spares.toLater, hlt, hacc',
      R.standing hlt hl⟩⟩
    · rw [hd] at h
      cases h
    · rw [habout] at ht
      exact ht

/-- A node writes down other contributions of a left token and turns. -/
theorem Tidy.refold (T : m.Tidy) (hk : net.kind? n = some (.accumulate feed fold having))
    (foundBy : Index) (hm' : (m.setNode n { m.node n with
      accumulators := (m.node n).accumulators.insert left acc, foundBy }).refresh net store n left =
        m') :
    m'.Tidy ∧ Spares net .none (fun _ _ => .at n left) m m' ∧
    (left < m.nextToken → m'.Lives left → (m'.about n left).accumulator = some acc ∧
      NodeKind.Turned (.accumulate feed fold having) store m m' n left) := by
  obtain ⟨hw, habout⟩ := put_accumulator m n left acc foundBy
  generalize m.setNode n { m.node n with
    accumulators := (m.node n).accumulators.insert left acc, foundBy } = m₁ at hm' hw habout
  obtain ⟨T₁, hkeep⟩ := T.writes hw (by rw [habout])
  obtain ⟨T', D, hturn⟩ := T₁.refresh W hk (by rw [habout]) hm'
  refine ⟨T', (hw.spares T).trans D id (fun _ => id) (fun h _ => h) (fun _ _ h => .inr h)
    (fun h _ => h), fun hlt hl => ?_⟩
  obtain ⟨hacc, hdefer, hdirect⟩ := hturn (hw.nextToken ▸ hlt) hl
  refine ⟨hacc, fun hd => ?_, fun hd => ?_⟩
  · obtain ⟨hkeep', hmark⟩ := hdefer (hw.deferring.trans hd)
    exact ⟨hkeep.trans hkeep', hmark⟩
  · obtain ⟨hnew, hexact⟩ := hdirect (hw.deferring.trans hd)
    exact ⟨hnew.before (@Writes.spares net _ _ _ hw T).toLater, hexact⟩

end

end Matching

/-! ## One left token -/

section
variable {net : Network} {store : WorkingMemory} {h : Handle} {m m' : Matching} {n : NodeId}
  {left : TokenId} {kind : NodeKind}

/-- What happens at the only spot of a step. -/
theorem Spares.spot {J : Sites} {X : Matching → Matching → Spots}
    (D : Spares net J (fun _ _ => .at n left) m m')
    (hx : left < m.nextToken → m'.Lives left → m.Unmoved m' n left ∨ X m m' n left) :
    Spares net J (fun m m' n' left' => Spots.at n left n' left' ∧ X m m' n' left') m m' where
  toLater := D.toLater
  joins := D.joins
  born := D.born
  held := D.held
  spots {n' left'} hlt hl := by
    rcases D.spots hlt hl with hu | hat
    · exact .inl hu
    · obtain ⟨rfl, rfl⟩ : n' = n ∧ left' = left := hat
      exact (hx hlt hl).imp_right fun h => ⟨⟨rfl, rfl⟩, h⟩

namespace Matching

theorem Lost.of_found (hk : net.kind? n = some kind)
    (hknows : ∀ r i, kind.Knows r i ↔ ∃ facts, r.found = some facts ∧ i ∈ facts) {facts : IdSet}
    (hf : (m.about n left).found = some facts) (hin : h ∈ facts)
    (hf' : (m'.about n left).found = some (facts.erase h)) (hturn : kind.Turned store m m' n left) :
    Lost net store m m' n left := by
  refine ⟨kind, hk, fun i hi => ?_, ⟨h, (hknows _ _).2 ⟨facts, hf, hin⟩, fun hi => ?_⟩, hturn⟩
  · obtain ⟨rest, hrest, hi⟩ := (hknows _ _).1 hi
    obtain rfl := Option.some.inj (hf'.symm.trans hrest)
    exact (hknows _ _).2 ⟨facts, hf, (IdSet.mem_erase.1 hi).2⟩
  · obtain ⟨rest, hrest, hi⟩ := (hknows _ _).1 hi
    obtain rfl := Option.some.inj (hf'.symm.trans hrest)
    exact (IdSet.mem_erase.1 hi).1 rfl

/-- A node strikes a fact off those that it found for a left token. -/
theorem Tidy.strike (T : m.Tidy) (hk : net.kind? n = some kind)
    (hknows : ∀ r i, kind.Knows r i ↔ ∃ facts, r.found = some facts ∧ i ∈ facts) {facts : IdSet}
    (hf : (m.node n).found[left]? = some facts) {m₁ : Matching}
    (hm₁ : m.setNode n { m.node n with
      found := (m.node n).found.insert left (facts.erase h) } = m₁)
    (hturn : h ∈ facts → (facts.erase h).isEmpty = false → m.KeepsOutput m₁ n left →
      (m₁.about n left).found = some (facts.erase h) → kind.Turned store m m₁ n left) :
    Writes (.at n left) m m₁ ∧ m₁.Tidy ∧
    (m₁.about n left).found = some (facts.erase h) ∧
    ((!facts.contains h || !(facts.erase h).isEmpty) = true → Spares net .none
      (fun m m' n' left' => Spots.at n left n' left' ∧ Lost net store m m' n' left') m m₁) := by
  obtain ⟨hw, habout⟩ := put_found m n left (facts.erase h) (m.node n).foundBy
  subst hm₁
  obtain ⟨T₁, hkeep⟩ := T.writes hw (by rw [habout])
  refine ⟨hw, T₁, by rw [habout], fun hrest => (hw.spares T).spot fun _ _ => ?_⟩
  by_cases hin : h ∈ facts
  · rw [Std.ExtTreeSet.contains_iff_mem.2 hin, Bool.not_true, Bool.false_or, Bool.not_eq_true'] at hrest
    exact .inr (.of_found hk hknows hf hin (by rw [habout])
      (hturn hin hrest hkeep (by rw [habout])))
  · have hsame : facts.erase h = facts := Std.ExtTreeSet.ext_mem fun i => by
      rw [IdSet.mem_erase, and_iff_right_iff_imp]
      rintro hi rfl
      exact hin hi
    refine .inl ⟨?_, hkeep.2⟩
    have hfound : (m.about n left).found = some facts := hf
    rw [habout, hsame, ← hfound]

theorem mem_found {i : Handle} : (∃ facts, (m.about n left).found = some facts ∧ i ∈ facts) ↔
    i ∈ ((m.about n left).found).getD ∅ := by
  cases (m.about n left).found with
  | none => exact iff_of_false (fun ⟨_, h, _⟩ => by cases h) Std.ExtTreeSet.not_mem_empty
  | some facts => exact ⟨fun ⟨_, h, hi⟩ => Option.some.inj h ▸ hi, fun hi => ⟨facts, rfl, hi⟩⟩

theorem Gained.of_found (hk : net.kind? n = some kind)
    (hknows : ∀ r i, kind.Knows r i ↔ ∃ facts, r.found = some facts ∧ i ∈ facts)
    (hf' : (m'.about n left).found = some ((((m.about n left).found).getD ∅).insert h))
    (hturn : ¬ kind.Knows (m.about n left) h → kind.Turned store m m' n left) :
    Gained net store h m m' n left := by
  refine ⟨kind, hk, fun hno => ⟨fun i => ?_, hturn hno⟩⟩
  rw [hknows, hknows, mem_found, mem_found, hf', Option.getD_some, IdSet.mem_insert]

/-- A node notes a fact as found for a left token. -/
theorem Tidy.find (T : m.Tidy) : ∃ m₁,
    m.find n left h = ((((m.about n left).found).getD ∅).isEmpty, m₁) ∧
    Writes (.at n left) m m₁ ∧ m₁.Tidy ∧ m.KeepsOutput m₁ n left ∧ m₁.about n left =
      { m.about n left with found := some ((((m.about n left).found).getD ∅).insert h) } := by
  obtain ⟨hw, habout⟩ := put_found m n left ((((m.about n left).found).getD ∅).insert h)
    ((m.node n).foundBy.file h left)
  obtain ⟨T₁, hkeep⟩ := T.writes hw (by rw [habout])
  exact ⟨_, rfl, hw, T₁, hkeep, habout⟩

/-- A step at one spot, where a fact may be lost. -/
def Loses (net : Network) (store : WorkingMemory) (n : NodeId) (left : TokenId) (m m' : Matching) :
    Prop :=
  m'.Tidy ∧ Spares net .none
    (fun m m' n' left' => Spots.at n left n' left' ∧ Lost net store m m' n' left') m m'

/-- A step at one spot, where a fact may be gained. -/
def Gains (net : Network) (store : WorkingMemory) (h : Handle) (n : NodeId) (left : TokenId)
    (m m' : Matching) : Prop :=
  m'.Tidy ∧ Spares net (.of n left (.fact h))
    (fun m m' n' left' => Spots.at n left n' left' ∧ Gained net store h m m' n' left') m m'

theorem Tidy.loses_refl (T : m.Tidy) : m.Loses net store n left m := by
  have hw : Writes (.at n left) m m := .refl
  exact ⟨T, (hw.spares T).spot fun _ _ => .inl ⟨rfl, fun _ _ => rfl⟩⟩

theorem Tidy.gains_refl (T : m.Tidy) : m.Gains net store h n left m := by
  have hw : Writes (.at n left) m m := .refl
  exact ⟨T, ((hw.spares T).mono (fun _ => False.elim) fun _ h => h).spot
    fun _ _ => .inl ⟨rfl, fun _ _ => rfl⟩⟩

variable (W : net.WellFormed)
include W

section
variable {feed : Feed}

theorem Tidy.part_absent (T : m.Tidy) (hk : net.kind? n = some (.absent feed))
    (hm' : m.part net store n (.absent feed) h left = m') : m.Loses net store n left m' := by
  cases hf : (m.node n).found[left]? with
  | none =>
    simp only [Matching.part, hf] at hm'
    exact hm' ▸ T.loses_refl
  | some facts =>
    simp only [Matching.part, hf] at hm'
    obtain ⟨m₁, hm₁⟩ : ∃ m₁, m.setNode n { m.node n with
      found := (m.node n).found.insert left (facts.erase h) } = m₁ := ⟨_, rfl⟩
    obtain ⟨hw, T₁, hfound, hstruck⟩ := @Tidy.strike net store h m n left _ T hk (fun _ _ => Iff.rfl)
      facts hf _ hm₁ fun _ _ _ _ => trivial
    rw [hm₁] at hm'
    split at hm'
    · next hrest => exact hm' ▸ ⟨T₁, hstruck hrest⟩
    · next hlast =>
      rw [Bool.or_eq_true, Bool.not_eq_true', Bool.not_eq_true', not_or, Bool.not_eq_false] at hlast
      have S := Matching.sprouts W store n m₁ left .nothing T₁
        ⟨fun _ => rfl, fun _ => by rw [hk]; rfl⟩
      rw [hm'] at S
      refine ⟨S.grows.tidy, Spares.spot ((hw.spares T).trans S.grows.toSpares id ?_ (fun h _ => h)
        (fun _ _ h => .inr h) (fun h _ => h)) fun hlt hl => .inr ?_⟩
      · rintro k l i - ⟨-, -, h⟩
        cases h
      · refine .of_found hk (fun _ _ => Iff.rfl) hf (Std.ExtTreeSet.contains_iff_mem.1 hlast.1) ?_
          trivial
        rw [S.about (hw.nextToken ▸ hlt) hl, hk]
        exact hfound

omit W in
theorem Tidy.part_present (T : m.Tidy) (hk : net.kind? n = some (.present feed))
    (hm' : m.part net store n (.present feed) h left = m') : m.Loses net store n left m' := by
  cases hf : (m.node n).found[left]? with
  | none =>
    simp only [Matching.part, hf] at hm'
    exact hm' ▸ T.loses_refl
  | some facts =>
    simp only [Matching.part, hf] at hm'
    obtain ⟨m₁, hm₁⟩ : ∃ m₁, m.setNode n { m.node n with
      found := (m.node n).found.insert left (facts.erase h) } = m₁ := ⟨_, rfl⟩
    obtain ⟨hw, T₁, hfound, hstruck⟩ := @Tidy.strike net store h m n left _ T hk (fun _ _ => Iff.rfl)
      facts hf _ hm₁ fun hin hrest hkeep hfound' => ⟨fun _ _ _ => hkeep, fun hno => by
        obtain ⟨i, hi⟩ := IdSet.exists_mem hrest
        exact absurd ⟨_, hfound', hi⟩ (hno i ⟨_, hf, (IdSet.mem_erase.1 hi).2⟩)⟩
    rw [hm₁] at hm'
    split at hm'
    · next hrest => exact hm' ▸ ⟨T₁, hstruck hrest⟩
    · next hlast =>
      rw [Bool.or_eq_true, Bool.not_eq_true', Bool.not_eq_true', not_or, Bool.not_eq_false,
        Bool.not_eq_false] at hlast
      obtain ⟨T', D, habout⟩ := T₁.withdraw hm'
      refine ⟨T', Spares.spot ((hw.spares T).trans D id (fun _ => id) (fun h _ => h)
        (fun _ _ h => .inr h) (fun h _ => h)) fun hlt hl => .inr ?_⟩
      have hgone := habout (hw.nextToken ▸ hlt) hl
      refine .of_found hk (fun _ _ => Iff.rfl) hf (Std.ExtTreeSet.contains_iff_mem.1 hlast.1) ?_
        ⟨fun i _ hi => ?_, fun _ t ht => ?_⟩
      · rw [hgone]
        exact hfound
      · obtain ⟨rest, hrest, hi⟩ := hi
        rw [hgone] at hrest
        obtain rfl := Option.some.inj (hfound.symm.trans hrest)
        exact absurd hi (IdSet.isEmpty_iff_forall.1 hlast.2 i)
      · rw [hgone] at ht
        cases ht

theorem Tidy.part_accumulate {fold : Fold} {having : Option (Operator × TestOperand Place)}
    (T : m.Tidy) (hk : net.kind? n = some (.accumulate feed fold having))
    (hm' : m.part net store n (.accumulate feed fold having) h left = m') :
    m.Loses net store n left m' := by
  cases hacc : (m.node n).accumulators[left]? with
  | none =>
    simp only [Matching.part, hacc] at hm'
    exact hm' ▸ T.loses_refl
  | some acc =>
    simp only [Matching.part, hacc] at hm'
    split at hm'
    · next hin =>
      obtain ⟨T', D, hturn⟩ := T.refold W hk _ hm'
      refine ⟨T', D.spot fun hlt hl => .inr ?_⟩
      obtain ⟨hacc', hturn⟩ := hturn hlt hl
      refine ⟨_, hk, ?_, ⟨h, ⟨acc, hacc, hin⟩, ?_⟩, hturn⟩
      · rintro i ⟨acc', h', hi⟩
        obtain rfl := Option.some.inj (hacc'.symm.trans h')
        exact ⟨acc, hacc, (Accumulator.contains_remove.1 hi).2⟩
      · rintro ⟨acc', h', hi⟩
        obtain rfl := Option.some.inj (hacc'.symm.trans h')
        exact (Accumulator.contains_remove.1 hi).1 rfl
    · exact hm' ▸ T.loses_refl

/-- A join makes a token for a fact that enters, and knows no more of its left token than before. -/
theorem Tidy.meet_join (T : m.Tidy) (hk : net.kind? n = some (.join feed))
    (hm' : m.meet net store n (.join feed) h left = m') : m.Gains net store h n left m' := by
  have hoffers : m.Offers net n (.fact h) := by
    refine ⟨fun hj => ?_, fun _ => by rw [hk]; rfl⟩
    rw [hk] at hj
    cases hj
  have S := Matching.sprouts W store n m left (.fact h) T hoffers
  simp only [Matching.meet] at hm'
  rw [hm'] at S
  refine ⟨S.grows.tidy, S.grows.toSpares.spot fun hlt hl => .inl ⟨?_, fun t ht => ?_⟩⟩
  · rw [S.about hlt hl, hk]
    rfl
  · cases ho : m.origin? t with
    | some o => exact S.grows.persist ho
    | none =>
      refine Option.eq_none_iff_forall_ne_some.2 fun o ho' => ?_
      rw [S.grows.survive (T.output ht).1 ho'] at ho
      cases ho

omit W in
theorem Tidy.meet_absent (T : m.Tidy) (hk : net.kind? n = some (.absent feed))
    (hm' : m.meet net store n (.absent feed) h left = m') : m.Gains net store h n left m' := by
  obtain ⟨m₁, hm₁, hw, T₁, hkeep, habout⟩ := @Tidy.find h m n left T
  simp only [Matching.meet, hm₁] at hm'
  split at hm'
  · obtain ⟨T', D, hgone⟩ := T₁.withdraw hm'
    have D' : Spares net (.of n left (.fact h)) (fun _ _ => .at n left) m m' :=
      (hw.spares T).trans D (fun h => h.elim) (fun _ h => h.elim) (fun h _ => h)
        (fun _ _ h => .inr h) fun h _ => h
    refine ⟨T', D'.spot fun hlt hl => .inr (.of_found hk (fun _ _ => Iff.rfl) ?_ fun _ => trivial)⟩
    rw [hgone (hw.nextToken ▸ hlt) hl, habout]
  · subst hm'
    have D : Spares net (.of n left (.fact h)) (fun _ _ => .at n left) m m₁ :=
      (hw.spares T).mono (fun _ => False.elim) fun _ h => h
    exact ⟨T₁, D.spot fun _ _ =>
      .inr (.of_found hk (fun _ _ => Iff.rfl) (by rw [habout]) fun _ => trivial)⟩

theorem Tidy.meet_present (T : m.Tidy) (hk : net.kind? n = some (.present feed))
    (hm' : m.meet net store n (.present feed) h left = m') : m.Gains net store h n left m' := by
  obtain ⟨m₁, hm₁, hw, T₁, hkeep, habout⟩ := @Tidy.find h m n left T
  simp only [Matching.meet, hm₁] at hm'
  split at hm'
  · next hfirst =>
    have S := Matching.sprouts W store n m₁ left .nothing T₁
      ⟨fun _ => rfl, fun _ => by rw [hk]; rfl⟩
    rw [hm'] at S
    refine ⟨S.grows.tidy, Spares.spot ((hw.spares T).trans S.grows.toSpares (fun h => h.elim) ?_
      (fun h _ => h) (fun _ _ h => .inr h) (fun h _ => h)) fun hlt hl => .inr ?_⟩
    · rintro k l i - ⟨-, -, h⟩
      cases h
    · have hsome := S.about (hw.nextToken ▸ hlt) hl
      rw [hk, habout] at hsome
      refine .of_found hk (fun _ _ => Iff.rfl) (congrArg LeftRecord.found hsome) fun _ =>
        ⟨fun i hi _ => ?_, fun _ t ht => ?_⟩
      · exact absurd (mem_found.1 hi) (IdSet.isEmpty_iff_forall.1 hfirst i)
      · rw [hsome] at ht
        obtain rfl := Option.some.inj ht
        exact Nat.le_of_eq hw.nextToken.symm
  · next hfirst =>
    rw [Bool.not_eq_true] at hfirst
    subst hm'
    have D : Spares net (.of n left (.fact h)) (fun _ _ => .at n left) m m₁ :=
      (hw.spares T).mono (fun _ => False.elim) fun _ h => h
    refine ⟨T₁, D.spot fun _ _ =>
      .inr (.of_found hk (fun _ _ => Iff.rfl) (by rw [habout]) fun _ =>
        ⟨fun _ _ _ => hkeep, fun hno => ?_⟩)⟩
    obtain ⟨i, hi⟩ := IdSet.exists_mem hfirst
    exact absurd ⟨_, by rw [habout], IdSet.mem_insert.2 (.inr hi)⟩ (hno i (mem_found.2 hi))

theorem Tidy.meet_accumulate {fold : Fold} {having : Option (Operator × TestOperand Place)}
    (T : m.Tidy) (hk : net.kind? n = some (.accumulate feed fold having))
    (hm' : m.meet net store n (.accumulate feed fold having) h left = m') :
    m.Gains net store h n left m' := by
  cases hacc : (m.node n).accumulators[left]? with
  | none =>
    simp only [Matching.meet, hacc] at hm'
    exact hm' ▸ T.gains_refl
  | some acc =>
    simp only [Matching.meet, hacc] at hm'
    obtain ⟨T', D, hturn⟩ := T.refold W hk _ hm'
    refine ⟨T', (D.mono (fun _ => False.elim) fun _ h => h).spot fun hlt hl => .inr ?_⟩
    obtain ⟨hacc', hturn⟩ := hturn hlt hl
    refine ⟨_, hk, fun _ => ⟨fun i => ?_, hturn⟩⟩
    constructor
    · rintro ⟨acc', h', hi⟩
      obtain rfl := Option.some.inj (hacc'.symm.trans h')
      exact (Accumulator.contains_add.1 hi).imp_right fun hi => ⟨acc, hacc, hi⟩
    · rintro (rfl | ⟨acc', h', hi⟩)
      · exact ⟨_, hacc', Accumulator.contains_add.2 (.inl rfl)⟩
      · obtain rfl := Option.some.inj (hacc.symm.trans h')
        exact ⟨_, hacc', Accumulator.contains_add.2 (.inr hi)⟩

end

/-- A fact no longer goes with a left token. -/
theorem Tidy.part (T : m.Tidy) (hk : net.kind? n = some kind)
    (hm' : m.part net store n kind h left = m') : m.Loses net store n left m' := by
  cases kind with
  | join feed => exact hm' ▸ T.loses_refl
  | predicate p scope => exact hm' ▸ T.loses_refl
  | absent feed => exact T.part_absent W hk hm'
  | present feed => exact T.part_present hk hm'
  | accumulate feed fold having => exact T.part_accumulate W hk hm'

/-- A fact goes with a left token that did not before. -/
theorem Tidy.meet (T : m.Tidy) (hk : net.kind? n = some kind)
    (hm' : m.meet net store n kind h left = m') : m.Gains net store h n left m' := by
  cases kind with
  | join feed => exact T.meet_join W hk hm'
  | predicate p scope => exact hm' ▸ T.gains_refl
  | absent feed => exact T.meet_absent hk hm'
  | present feed => exact T.meet_present W hk hm'
  | accumulate feed fold having => exact T.meet_accumulate W hk hm'

end Matching

end

end RuleNet
