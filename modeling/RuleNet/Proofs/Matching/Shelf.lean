/-
  Every alpha memory is kept as it would be alone.

  What a memory holds, and in which order, depends on its type, its tests and its window, and on the
  facts that came and went; neither the other memories nor the matches have a part in it.

  * `Shelf`: what a memory holds, without the index by fields.
  * `Shelf.receive`, `Shelf.take`, `Shelf.expire`: what becomes of it when facts come, go or age.
  * `Matching.shelf_assert`, `Matching.shelf_retract`, `Matching.shelf_expireWindows`: so it is with
    every memory of a matching.
-/
import RuleNet.Proofs.Matching.Works
import RuleNet.Proofs.Matching.Assert
import RuleNet.Proofs.Matching.Retract

namespace RuleNet

/-- What an alpha memory holds, without the index by fields. -/
@[ext]
structure Shelf where
  facts : IdSet
  order : Std.ExtTreeSet (Int × Handle) dictionary
  positions : Std.ExtTreeMap Handle Int
  arrivals : Nat

def AlphaMemory.shelf (memory : AlphaMemory) : Shelf :=
  ⟨memory.facts, memory.order, memory.positions, memory.arrivals⟩

def Matching.shelf (m : Matching) (a : AlphaId) : Shelf := (m.alpha a).shelf

/-- Whether a memory takes a fact, its window included. -/
def AlphaNode.takes (alpha : AlphaNode) (now : Moment) (entry : Entry) : Bool :=
  (alpha.admits entry.fact && Test.allHold .blank entry.fact entry.moment alpha.tests) &&
    match alpha.window with
    | some (.time length) => length.covers entry.moment now
    | _ => true

/-- Whether a memory takes a fact. -/
def Network.takes (net : Network) (now : Moment) (entry : Entry) (a : AlphaId) : Bool :=
  (net.alpha? a).any (·.takes now entry)

theorem Network.takes_eq {net : Network} {a : AlphaId} {alpha : AlphaNode}
    (ha : net.alpha? a = some alpha) {now : Moment} {entry : Entry} :
    net.takes now entry a = alpha.takes now entry := by rw [takes, ha]; rfl

namespace Shelf

/-- A fact is put at a position. -/
def put (shelf : Shelf) (h : Handle) (position : Int) : Shelf :=
  { shelf with
    facts := shelf.facts.insert h
    order := shelf.order.insert (position, h)
    positions := shelf.positions.insert h position }

/-- A fact goes, if it is there. -/
def take (shelf : Shelf) (h : Handle) : Shelf :=
  if shelf.facts.contains h then
    { shelf with
      facts := shelf.facts.erase h
      order := match shelf.positions[h]? with
        | some position => shelf.order.erase (position, h)
        | none => shelf.order
      positions := shelf.positions.erase h }
  else shelf

/-- A fact that is taken is put by its moment into a time window, and after all others elsewhere. -/
def enter (shelf : Shelf) (alpha : AlphaNode) (h : Handle) (entry : Entry) : Shelf :=
  match alpha.window with
  | some (.time _) => shelf.put h entry.moment
  | _ => { shelf with arrivals := shelf.arrivals + 1 }.put h (shelf.arrivals + 1 : Nat)

/-- The oldest members that are too many. -/
def surplus (shelf : Shelf) (alpha : AlphaNode) : List Handle := match alpha.window with
  | some (.length capacity) =>
    (shelf.order.toList.take (shelf.facts.size - capacity)).map Prod.snd
  | _ => []

/-- A fact comes, and the window lets go what is too much. -/
def receive (shelf : Shelf) (alpha : AlphaNode) (now : Moment) (h : Handle) (entry : Entry) :
    Shelf :=
  if alpha.takes now entry then
    ((shelf.enter alpha h entry).surplus alpha).foldl take (shelf.enter alpha h entry)
  else shelf

/-- The members that are too old. -/
def outdated (shelf : Shelf) (alpha : AlphaNode) (now : Moment) : List Handle :=
  match alpha.window with
  | some (.time length) =>
    (shelf.order.toList.takeWhile fun member => !length.covers member.1 now).map Prod.snd
  | _ => []

/-- The window lets go what is too old. -/
def expire (shelf : Shelf) (alpha : AlphaNode) (now : Moment) : Shelf :=
  (shelf.outdated alpha now).foldl take shelf

theorem take_of_not_mem {shelf : Shelf} {h : Handle} (hno : h ∉ shelf.facts) :
    shelf.take h = shelf := by
  rw [take, if_neg]
  exact fun hc => hno (Std.ExtTreeSet.contains_iff_mem.1 hc)

theorem mem_take {shelf : Shelf} {h i : Handle} :
    i ∈ (shelf.take h).facts ↔ i ∈ shelf.facts ∧ i ≠ h := by
  unfold take
  split
  · rw [IdSet.mem_erase, and_comm]
  · next hc =>
    have hno : h ∉ shelf.facts := fun hh => hc (Std.ExtTreeSet.contains_iff_mem.2 hh)
    refine ⟨fun hi => ⟨hi, ?_⟩, And.left⟩
    rintro rfl
    exact hno hi

theorem take_take (shelf : Shelf) (h : Handle) : (shelf.take h).take h = shelf.take h :=
  take_of_not_mem fun hh => (mem_take.1 hh).2 rfl

theorem mem_takeAll {hs : List Handle} {shelf : Shelf} {i : Handle} :
    i ∈ (hs.foldl take shelf).facts ↔ i ∈ shelf.facts ∧ i ∉ hs := by
  induction hs generalizing shelf with
  | nil => simp
  | cons h rest ih => rw [List.foldl_cons, ih, mem_take, List.mem_cons, not_or, and_assoc]

end Shelf

/-- The members of memories are live facts. -/
theorem Stocked.live {net : Network} {store : WorkingMemory} {m : Matching}
    (K : Stocked net store m) (a : AlphaId) :
    ∀ h ∈ (m.shelf a).facts, ∃ fact, store.fact? h = some fact := fun h hh => by
  obtain ⟨alpha, entry, -, he, -⟩ := K.typed hh
  exact ⟨entry.fact, by rw [WorkingMemory.fact?, he]; rfl⟩

namespace Matching

variable {net : Network} {store : WorkingMemory} {m m' : Matching}

theorem shelf_congr (h : m'.alphas = m.alphas) (a : AlphaId) : m'.shelf a = m.shelf a := by
  rw [shelf, shelf, alpha, alpha, h]

/-! ## One memory -/

theorem shelf_enter (m : Matching) (a b : AlphaId) (fields : List String) (h : Handle) (fact : Fact)
    (position : Int) : (m.enter a fields h fact position).shelf b =
      if a = b then (m.shelf b).put h position else m.shelf b := by
  rw [shelf, enter, alpha_setAlpha]
  split
  · next hab =>
    subst hab
    rfl
  · rfl

theorem shelf_leave (m : Matching) (a b : AlphaId) (h : Handle) (fact : Fact) :
    (m.leave a h fact).shelf b = if a = b then (m.shelf b).take h else m.shelf b := by
  by_cases hab : a = b
  · subst hab
    rw [if_pos rfl, Shelf.take]
    simp only [leave]
    show Matching.shelf (if (m.alpha a).facts.contains h then _ else m) a =
      if (m.alpha a).facts.contains h then _ else m.shelf a
    split
    · rw [shelf, alpha_setAlpha, if_pos rfl]
      rfl
    · rfl
  · rw [if_neg hab]
    simp only [leave]
    split
    · rw [shelf, alpha_setAlpha, if_neg hab]
      rfl
    · rfl

/-- A fact is tried on a memory. -/
theorem shelf_offer (m : Matching) {a : AlphaId} {alpha : AlphaNode} (ha : net.alpha? a = some alpha)
    {entry : Entry} (hadmits : alpha.admits entry.fact = true) (now : Moment) (h : Handle) :
    (m.offer net now h entry a).1 = alpha.takes now entry ∧
    ∀ b, (m.offer net now h entry a).2.shelf b =
      if a = b ∧ alpha.takes now entry = true then (m.shelf b).enter alpha h entry
      else m.shelf b := by
  have hnext : ∀ b, ((m.nextArrival a).2.enter a alpha.indexedFields h entry.fact
      (m.nextArrival a).1).shelf b = if a = b then
        { m.shelf b with arrivals := (m.shelf b).arrivals + 1 }.put h
          ((m.shelf b).arrivals + 1 : Nat)
      else m.shelf b := fun b => by
    rw [shelf_enter]
    split
    · next hab =>
      subst hab
      rw [nextArrival, shelf, alpha_setAlpha, if_pos rfl]
      rfl
    · next hab => rw [nextArrival, shelf, alpha_setAlpha, if_neg hab, shelf]
  rw [offer, ha]
  simp only [AlphaNode.takes, hadmits, Bool.true_and]
  split
  · next htests =>
    rw [htests, Bool.true_and]
    cases hwindow : alpha.window with
    | none =>
      refine ⟨rfl, fun b => ?_⟩
      simp only [and_true, Shelf.enter, hwindow]
      exact hnext b
    | some window =>
      cases window with
      | length capacity =>
        refine ⟨rfl, fun b => ?_⟩
        simp only [and_true, Shelf.enter, hwindow]
        exact hnext b
      | time length =>
        simp only [Shelf.enter, hwindow]
        split
        · next hcovers =>
          refine ⟨hcovers.symm, fun b => ?_⟩
          simp only [hcovers, and_true]
          exact shelf_enter ..
        · next hcovers =>
          refine ⟨(Bool.not_eq_true _ ▸ hcovers).symm, fun b => ?_⟩
          rw [if_neg fun hb => hcovers hb.2]
  · next htests =>
    rw [Bool.not_eq_true] at htests
    simp [htests]

theorem offerAll_cons (now : Moment) (h : Handle) (entry : Entry) (m : Matching) (a : AlphaId)
    (rest : List AlphaId) {first : Bool × Matching} {others : List AlphaId × Matching}
    (hfirst : m.offer net now h entry a = first)
    (hothers : offerAll net now h entry first.2 rest = others) :
    offerAll net now h entry m (a :: rest) =
      (if first.1 then a :: others.1 else others.1, others.2) := by
  subst hfirst hothers
  rfl

/-- A fact is tried on memories, one after the other. -/
theorem shelf_offerAll {entry : Entry} (now : Moment) (h : Handle) {tried : List AlphaId}
    (hnodup : tried.Nodup) (htried : ∀ a ∈ tried, ∃ alpha, net.alpha? a = some alpha ∧
      alpha.admits entry.fact = true) (m : Matching) :
    (offerAll net now h entry m tried).1 = tried.filter (net.takes now entry) ∧
    ∀ b alpha, net.alpha? b = some alpha → (offerAll net now h entry m tried).2.shelf b =
      if b ∈ tried ∧ alpha.takes now entry = true then (m.shelf b).enter alpha h entry
      else m.shelf b := by
  induction tried generalizing m with
  | nil => exact ⟨rfl, fun b alpha hb => by simp [offerAll]⟩
  | cons a rest ih =>
    obtain ⟨hnot, hrest⟩ := List.nodup_cons.1 hnodup
    obtain ⟨alpha, ha, hadmits⟩ := htried a List.mem_cons_self
    obtain ⟨hentered, hshelf⟩ := shelf_offer m ha hadmits now h
    obtain ⟨hothers, hshelves⟩ := ih hrest (fun b hb => htried b (List.mem_cons_of_mem _ hb))
      (m.offer net now h entry a).2
    rw [offerAll_cons now h entry m a rest rfl rfl]
    refine ⟨?_, fun b beta hb => ?_⟩
    · dsimp only
      rw [hentered, hothers, List.filter_cons, Network.takes_eq ha]
    · dsimp only
      rw [hshelves b beta hb, hshelf b]
      by_cases hab : a = b
      · subst hab
        obtain rfl := Option.some.inj (ha.symm.trans hb)
        simp [hnot]
      · simp [hab, Ne.symm hab]

/-! ## Facts that leave -/

/-- A fact leaves one memory, if it is there. -/
theorem shelf_evict (m : Matching) (a b : AlphaId) {h : Handle}
    (hlive : h ∈ (m.shelf a).facts → ∃ fact, store.fact? h = some fact) :
    (m.evict net store a h).shelf b = if a = b then (m.shelf b).take h else m.shelf b := by
  unfold evict
  split
  · next hno =>
    split
    · next hab =>
      subst hab
      refine (Shelf.take_of_not_mem fun hh => ?_).symm
      obtain ⟨fact, hf⟩ := hlive hh
      rw [hno] at hf
      cases hf
    · rfl
  · next fact hf =>
    rw [← shelf_leave m a b h fact]
    refine shelf_congr ?_ b
    exact ((carries_alphasKept net).release store h _ _ _).alphas

/-- Members leave one memory. -/
theorem shelf_evictEach (a b : AlphaId) (hs : List Handle) (m : Matching)
    (hlive : ∀ h ∈ (m.shelf a).facts, ∃ fact, store.fact? h = some fact) :
    (hs.foldl (evict net store a) m).shelf b =
      if a = b then hs.foldl Shelf.take (m.shelf b) else m.shelf b := by
  induction hs generalizing m with
  | nil => simp
  | cons h rest ih =>
    have hevict := fun b => @shelf_evict net store m a b h
    rw [List.foldl_cons, ih _ fun i hi => ?_, hevict b (hlive h)]
    · split
      · rw [List.foldl_cons]
      · rfl
    · rw [hevict a (hlive h), if_pos rfl, Shelf.mem_take] at hi
      exact hlive i hi.1

/-- Members leave memories, one memory after the other. -/
theorem shelf_sweep {goes : Matching → AlphaId → List Handle}
    (due : Shelf → AlphaNode → List Handle)
    (hgoes : ∀ m a alpha, net.alpha? a = some alpha → goes m a = due (m.shelf a) alpha)
    {as : List AlphaId} (hnodup : as.Nodup) (m : Matching)
    (hlive : ∀ a, ∀ h ∈ (m.shelf a).facts, ∃ fact, store.fact? h = some fact) {b : AlphaId}
    {alpha : AlphaNode} (hb : net.alpha? b = some alpha) :
    (as.foldl (fun m a => (goes m a).foldl (evict net store a) m) m).shelf b =
      if b ∈ as then (due (m.shelf b) alpha).foldl Shelf.take (m.shelf b) else m.shelf b := by
  induction as generalizing m with
  | nil => simp
  | cons a rest ih =>
    obtain ⟨hnot, hrest⟩ := List.nodup_cons.1 hnodup
    have hfirst := fun c => @shelf_evictEach net store a c (goes m a) m (hlive a)
    rw [List.foldl_cons, ih hrest _ fun c i hi => ?_]
    · rw [hfirst b]
      by_cases hab : a = b
      · subst hab
        rw [if_neg hnot, if_pos rfl, if_pos List.mem_cons_self, hgoes m a alpha hb]
      · simp only [if_neg hab, List.mem_cons, Ne.symm hab, false_or]
    · rw [hfirst c] at hi
      split at hi
      · exact hlive c i (Shelf.mem_takeAll.1 hi).1
      · exact hlive c i hi

/-! ## Whole steps -/

theorem surplus_eq (m : Matching) {a : AlphaId} {alpha : AlphaNode}
    (ha : net.alpha? a = some alpha) : m.surplus net a = (m.shelf a).surplus alpha := by
  rw [surplus, ha]
  rfl

theorem outdated_eq (m : Matching) {a : AlphaId} {alpha : AlphaNode}
    (ha : net.alpha? a = some alpha) (now : Moment) :
    outdated net now m a = (m.shelf a).outdated alpha now := by
  rw [outdated, ha]
  rfl

/-- A fact enters. -/
theorem shelf_assert (K : Stocked net store m) {h : Handle} {entry : Entry}
    (he : store.entry? h = some entry) (now : Moment) {b : AlphaId} {alpha : AlphaNode}
    (hb : net.alpha? b = some alpha) :
    (m.assert net store h now).shelf b = (m.shelf b).receive alpha now h entry := by
  have hcandidates := fun a => @Network.admits_of_candidate net entry.fact a
  obtain ⟨⟨entered, m₁⟩, hoffered⟩ :
      ∃ o, offerAll net now h entry m (net.candidates entry.fact) = o := ⟨_, rfl⟩
  obtain ⟨hentered, hshelf⟩ := shelf_offerAll now h (List.nodup_range.filter _) hcandidates m
  rw [← Network.candidates, hoffered] at hentered hshelf
  dsimp only at hentered hshelf
  have O := offerAll_spec K he hcandidates hoffered
  have hsweep := fun memoriesOf => shelf_sweep Shelf.surplus
    (fun m a alpha ha => surplus_eq m ha)
    (hentered ▸ (List.nodup_range.filter _).filter _) { m₁ with memoriesOf } O.stocked.live hb
  have hafter : (m.assert net store h now).shelf b =
      (entered.foldl (fun (m : Matching) a => (m.surplus net a).foldl (evict net store a) m)
        { m₁ with memoriesOf := m₁.memoriesOf.insert h entered }).shelf b := by
    simp only [assert, he, hoffered]
    have C := carries_alphasKept net
    exact shelf_congr (C.foldl (C.assertRight store h) _ _).alphas b
  have hmem : alpha.takes now entry = true → b ∈ net.candidates entry.fact := fun htakes =>
    List.mem_filter.2 ⟨List.mem_range.2 (Array.getElem?_eq_some_iff.1 hb).1, by
      simp only [AlphaNode.takes, Bool.and_eq_true] at htakes
      rw [hb]
      exact htakes.1.1⟩
  have hiff : b ∈ entered ↔ alpha.takes now entry = true := by
    rw [hentered, List.mem_filter, Network.takes_eq hb]
    exact ⟨And.right, fun htakes => ⟨hmem htakes, htakes⟩⟩
  rw [hafter, hsweep, Shelf.receive]
  show (if b ∈ entered then ((m₁.shelf b).surplus alpha).foldl Shelf.take (m₁.shelf b)
    else m₁.shelf b) = _
  rw [hshelf b alpha hb]
  by_cases htakes : alpha.takes now entry = true
  · rw [if_pos (hiff.2 htakes), if_pos ⟨hmem htakes, htakes⟩, if_pos htakes]
  · rw [if_neg fun hb => htakes (hiff.1 hb), if_neg fun hb => htakes hb.2, if_neg htakes]

/-- A fact leaves everything. -/
theorem shelf_retract (H : Housed m) {h : Handle} {fact : Fact} (hf : store.fact? h = some fact)
    (b : AlphaId) : (m.retract net store h).shelf b = (m.shelf b).take h := by
  have hleave : ∀ (alphas : List AlphaId) (m : Matching), (m.leaveAll alphas h fact).shelf b =
      if b ∈ alphas then (m.shelf b).take h else m.shelf b := by
    intro alphas
    induction alphas with
    | nil => intro m; simp [leaveAll]
    | cons a rest ih =>
      intro m
      show ((m.leave a h fact).leaveAll rest h fact).shelf b = _
      rw [ih, shelf_leave]
      by_cases hab : a = b
      · subst hab
        simp [Shelf.take_take]
      · simp [hab, Ne.symm hab]
  have hafter : (m.retract net store h).shelf b =
      (leaveAll { m with memoriesOf := m.memoriesOf.erase h } ((m.memoriesOf[h]?).getD []) h
        fact).shelf b := by
    rw [retract, hf]
    have C := carries_alphasKept net
    exact shelf_congr (C.trans (C.foldl (fun m t => C.delete t m) _ _)
      (C.foldl (fun m a => C.foldl (C.retractRight store h) _ m) _ _)).alphas b
  rw [hafter, hleave]
  split
  · rfl
  · next hb =>
    refine (Shelf.take_of_not_mem fun hh => hb ?_).symm
    obtain ⟨alphas, halphas, hmem⟩ := H.known hh
    rw [halphas]
    exact hmem

/-- Events leave the time windows they are too old for. -/
theorem shelf_expireWindows (K : Stocked net store m) (now : Moment) {b : AlphaId}
    {alpha : AlphaNode} (hb : net.alpha? b = some alpha) :
    (m.expireWindows net store now).shelf b = (m.shelf b).expire alpha now := by
  have hrange : b ∈ List.range net.alphas.size :=
    List.mem_range.2 (Array.getElem?_eq_some_iff.1 hb).1
  rw [expireWindows, shelf_sweep (fun shelf alpha => shelf.outdated alpha now)
    (fun m a alpha ha => outdated_eq m ha now) List.nodup_range m
    K.live hb, if_pos hrange, Shelf.expire]

end Matching

end RuleNet
