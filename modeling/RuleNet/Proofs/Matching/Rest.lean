/-
  Matchings at rest.

  * `Sound.mem_handles`, `Kept.restock`: what a matching reads of working memory are the facts in alpha
    memories; others may come, change and go.
  * `Ledger.rest`: nothing is amiss, but that exposed joins may hold a fact twice.
  * `Kept.start`: a matching starts at rest.
  * `Kept.expireWindows`: events that are too old leave their windows.
  * `Kept.beginUpdate`, `Kept.endUpdate`: between them results are only marked.
-/
import RuleNet.Proofs.Matching.Assert
import RuleNet.Proofs.Matching.Evict
import RuleNet.Proofs.Matching.Retract

namespace RuleNet

open Matching (Extension contribution)

/-! ## What is read of working memory -/

section
variable {net : Network} {store store' : WorkingMemory} {x : Ledger} {m : Matching}

/-- The facts of a match are in alpha memories. -/
theorem Sound.mem_handles (S : Sound net store x m) (hidle : ∀ n left, ¬ x.busy n left)
    (hlate : ∀ n i, ¬ x.late n i) {t : TokenId} {o : Origin} (ho : m.origin? t = some o) :
    ∀ i ∈ (m.matchOf t).handles, ∃ a, i ∈ m.members a := by
  have F := S.forest
  refine F.induction (P := fun t _ => ∀ i ∈ (m.matchOf t).handles, ∃ a, i ∈ m.members a) ?_ ?_ t o ho
  · rw [Matching.matchOf_root F]
    exact fun i hi => absurd hi List.not_mem_nil
  · intro t p n node o above ho hp hn hnode hlt habove heq _ ih i hi
    rw [Matching.matchOf_made ho hp hlt habove, Match.handles, List.filterMap_append,
      List.mem_append] at hi
    rcases hi with hi | hi
    · exact ih i hi
    · obtain ⟨e, he, hei⟩ := List.mem_filterMap.1 hi
      obtain rfl := List.mem_singleton.1 he
      obtain ⟨n', left, feed, hn', hmade, hkind⟩ := S.toChained.made_of_handle ho hei
      obtain ⟨-, node', hnode', hl⟩ := hmade.leftOf F
      have hjoin : node'.kind = .join feed :=
        Option.some.inj ((Network.kind?_eq hnode').symm.trans hkind)
      have hs := S.settled hnode' hl (hidle n' left)
      rw [hjoin] at hs
      rcases (hs.2.1 i).1 ⟨t, hmade⟩ with hin | hl
      · exact ⟨feed.alpha, hin.1⟩
      · exact absurd hl.1 (hlate n' i)

theorem Match.accepts_congr {μ : Match} {feed : Feed} {i : Handle}
    (hview : μ.view store' = μ.view store) (hi : store'.entry? i = store.entry? i) :
    μ.accepts store' feed i = μ.accepts store feed i := by
  simp only [accepts, hview, WorkingMemory.valueOf, WorkingMemory.fact?, hi]

theorem Matching.contribution_congr {fold : Fold} {i : Handle}
    (hi : store'.entry? i = store.entry? i) :
    contribution store' fold i = contribution store fold i := by
  simp only [contribution, WorkingMemory.valueOf, WorkingMemory.fact?, hi]

theorem Ledger.Covers.restock {n : NodeId} {ids : IdSet} {μ : Match} {feed : Feed}
    {facts : Handle → Prop} (hc : x.Covers n store ids μ feed facts)
    (hview : μ.view store' = μ.view store)
    (hsame : ∀ i ∈ ids, store'.entry? i = store.entry? i) :
    x.Covers n store' ids μ feed facts := fun i => by
  refine ⟨fun hi => ((hc i).1 hi).imp_left fun h => ⟨h.1, ?_⟩, fun hin ha => (hc i).2 hin ?_⟩
  · rw [Match.accepts_congr hview (hsame i h.1)]
    exact h.2
  · rw [← Match.accepts_congr hview (hsame i hin)]
    exact ha

/-- What a node has done for a left token rests on the facts of its memory and of the match. -/
theorem Ledger.Settled.restock {members : AlphaId → IdSet} {n : NodeId} {left : TokenId} {μ : Match}
    {r : LeftRecord} {made : TokenId → Matching.Extension → Prop} {kind : NodeKind}
    (hs : x.Settled store members n left μ r made kind) (hlate : ∀ n i, ¬ x.late n i)
    (hμ : ∀ i ∈ μ.handles, store'.entry? i = store.entry? i)
    (hsame : ∀ a, ∀ i ∈ members a, store'.entry? i = store.entry? i) :
    x.Settled store' members n left μ r made kind := by
  have hview : μ.view store' = μ.view store := Match.view_congr hμ
  have hkey : ∀ feed, μ.keyFor store' feed = μ.keyFor store feed := fun feed => by
    rw [Match.keyFor, Match.keyFor, hview]
  cases kind with
  | join feed =>
    obtain ⟨hr, hc, htwice⟩ := hs
    exact ⟨by rw [hkey]; exact hr, hc.restock hview (hsame feed.alpha), htwice⟩
  | absent feed =>
    obtain ⟨facts, output, hr, hc, hp⟩ := hs
    exact ⟨facts, output, by rw [hkey]; exact hr, hc.restock hview (hsame feed.alpha), hp⟩
  | present feed =>
    obtain ⟨facts, output, hr, hc, hp⟩ := hs
    exact ⟨facts, output, by rw [hkey]; exact hr, hc.restock hview (hsame feed.alpha), hp⟩
  | accumulate feed fold having =>
    obtain ⟨acc, output, marked, result, hr, hc, hf, hp, hagree⟩ := hs
    refine ⟨acc, output, marked, result, by rw [hkey]; exact hr,
      hc.restock hview (hsame feed.alpha), ⟨hf.same_fold, hf.regular, fun {i v} hi => ?_⟩, hp, ?_⟩
    · rcases (hc i).1 (Accumulator.contains_iff.2 ⟨v, hi⟩) with hin | hl
      · rw [Matching.contribution_congr (hsame feed.alpha i hin.1)]
        exact hf.contributions hi
      · exact absurd hl.1 (hlate n i)
    · have hgate : μ.gated? store' having acc = μ.gated? store having acc := by
        simp only [Match.gated?, hview]
      rw [hgate]
      exact hagree
  | predicate p scope =>
    obtain ⟨output, hr, hp⟩ := hs
    refine ⟨output, hr, ?_⟩
    rw [Match.binding_congr scope hμ]
    exact hp

theorem Stocked.restock (K : Stocked net store m)
    (hsame : ∀ a, ∀ i ∈ m.members a, store'.entry? i = store.entry? i) : Stocked net store' m where
  typed {a i} hi := by
    obtain ⟨alpha, entry, ha, he, ht⟩ := K.typed hi
    exact ⟨alpha, entry, ha, (hsame a i hi).trans he, ht⟩
  found {a alpha field i key} ha hfield := by
    rw [K.found ha hfield]
    refine and_congr_right fun hi => ?_
    simp only [WorkingMemory.valueOf, WorkingMemory.fact?, hsame a i hi]
  separate := K.separate

/-- Facts that are in no memory may come, change and go. -/
theorem Kept.restock (k : Kept net store x m) (hidle : ∀ n left, ¬ x.busy n left)
    (hlate : ∀ n i, ¬ x.late n i)
    (hsame : ∀ a, ∀ i ∈ m.members a, store'.entry? i = store.entry? i) : Kept net store' x m where
  sound :=
    { toChained := k.sound.toChained
      toRecorded := k.sound.toRecorded
      settled := fun {n node left} hn hl hb => by
        refine (k.sound.settled hn hl hb).restock hlate (fun i hi => ?_) hsame
        obtain ⟨o, ho, -⟩ := hl
        obtain ⟨a, ha⟩ := k.sound.mem_handles hidle hlate ho i hi
        exact hsame a i ha }
  stocked := k.stocked.restock hsame
  housed := k.housed

end

/-- Nothing is amiss, but that exposed joins may hold a fact twice. -/
def Ledger.rest (net : Network) (base : TerminalId → TokenId → Prop)
    (agree : Option Value → Option Value → Prop) : Ledger where
  base := base
  agree := agree
  twice n _ _ := net.Exposed n
  late _ _ := False
  unlisted _ _ := False
  unfiled _ := False
  stale _ _ := False
  busy _ _ := False

theorem Ledger.quiet_rest {net : Network} {base : TerminalId → TokenId → Prop}
    {agree : Option Value → Option Value → Prop} (h : ∀ a, agree a a) :
    (Ledger.rest net base agree).Quiet :=
  ⟨fun _ => id, fun _ _ => id, fun _ _ => id, h⟩

section
variable {net : Network} {store : WorkingMemory} {x : Ledger} {m m' : Matching}

/-! ## Events -/

/-- The events are taken, and told anew from here. -/
theorem Kept.takeEvents (k : Kept net store x m) :
    Kept net store { x with base := m.Stands net } { m with events := #[] } where
  sound :=
    { forest := k.sound.forest.congr rfl rfl
      carries := k.sound.carries
      filed := k.sound.filed
      told := fun _ _ => Iff.rfl
      blank := k.sound.blank
      nodes := k.sound.nodes
      settled := fun {n node left} hn hl hb => by
        have hmatch : Matching.matchOf { m with events := #[] } = m.matchOf :=
          Matching.matchOf_congr rfl
        rw [hmatch]
        exact k.sound.settled hn hl hb }
  stocked := k.stocked.of_alphas rfl
  housed := k.housed.congr rfl rfl

/-! ## Starting -/

/-- The matching that holds the root token and nothing else, which stands at some terminals. -/
def Matching.bare (net : Network) : Matching :=
  empty.note (net.rootTerminals.map fun terminal => .formed terminal rootToken)

namespace Matching

theorem tokens_bare (t : TokenId) : (bare net).tokens[t]? =
    if t = rootToken then some ⟨none, none, 0, none, none, []⟩ else none := by
  have hget : (bare net).tokens[t]? = if rootToken = t then some ⟨none, none, 0, none, none, []⟩
      else (∅ : Std.ExtTreeMap TokenId Token)[t]? := by
    simp only [bare, note, empty, Std.ExtTreeMap.getElem?_insert, Nat.compare_eq_eq]
  rw [hget, Std.ExtTreeMap.getElem?_empty]
  simp only [eq_comm]

theorem origin?_bare {t : TokenId} {o : Origin} :
    (bare net).origin? t = some o ↔ t = rootToken ∧ o = ⟨none, none, 0, .nothing⟩ := by
  rw [origin?, tokens_bare]
  split
  · next h =>
    rw [Option.map_some, Option.some.injEq, and_iff_right h]
    exact eq_comm
  · next h => exact iff_of_false (fun h' => by cases h') fun h' => h h'.1

theorem forest_bare : (bare net).Forest net where
  root := origin?_bare.2 ⟨rfl, rfl⟩
  lt_next ho := by
    obtain ⟨rfl, -⟩ := origin?_bare.1 ho
    exact Nat.zero_lt_one
  made ho hne := absurd (origin?_bare.1 ho).1 hne
  children {p c} := by
    refine iff_of_false ?_ ?_
    · rintro ⟨token, htoken, hc⟩
      rw [tokens_bare] at htoken
      split at htoken
      · cases htoken
        exact absurd hc List.not_mem_nil
      · cases htoken
    · rintro ⟨o, ho, hp⟩
      obtain ⟨-, rfl⟩ := origin?_bare.1 ho
      cases hp
  nodup {p token} htoken := by
    rw [tokens_bare] at htoken
    split at htoken
    · cases htoken
      exact List.nodup_nil
    · cases htoken

theorem members_bare (a : AlphaId) (h : Handle) : h ∉ (bare net).members a :=
  Std.ExtTreeSet.not_mem_empty

theorem stocked_bare (store : WorkingMemory) : Stocked net store (bare net) where
  typed hi := absurd hi (members_bare _ _)
  found {a alpha field h key} _ _ := by
    refine iff_of_false ?_ fun hi => members_bare a h hi.1
    exact Std.ExtTreeSet.not_mem_empty
  separate _ _ := Buckets.separate_nil

end Matching

variable (W : net.WellFormed)
include W

theorem Matching.sound_bare (agree : Option Value → Option Value → Prop) : Sound net store
    { Ledger.rest net (fun _ _ => False) agree with
      busy := fun n left => False ∨ (n ∈ net.rootChildren ∧ left = rootToken) } (bare net) where
  forest := forest_bare
  carries hmade _ := by
    obtain ⟨depth, ho⟩ := hmade
    obtain ⟨-, heq⟩ := origin?_bare.1 ho
    cases heq
  filed {t h} := by
    refine iff_of_false Std.ExtTreeSet.not_mem_empty ?_
    rintro ⟨-, o, ho, hh⟩
    obtain ⟨-, rfl⟩ := origin?_bare.1 ho
    cases hh
  told := by
    have hevents : (bare net).events.toList =
        net.rootTerminals.map fun terminal => .formed terminal rootToken := by
      simp [bare, note, empty]
    rw [hevents]
    refine (Replays.formed W.nodup_rootTerminals fun _ _ => id).congr (fun _ _ => Iff.rfl)
      fun τ t => ?_
    refine (or_iff_right id).trans ?_
    rw [W.rootTerminals]
    constructor
    · rintro ⟨⟨terminal, hτ, hn⟩, rfl⟩
      exact ⟨terminal, hτ, _, forest_bare.root, hn.symm⟩
    · rintro ⟨terminal, hτ, o, ho, hn⟩
      obtain ⟨rfl, rfl⟩ := origin?_bare.1 ho
      exact ⟨⟨terminal, hτ, hn.symm⟩, rfl⟩
  blank _ := rfl
  nodes _ := .empty
  settled {n node left} hn hl hb := by
    obtain ⟨o, ho, hparent⟩ := hl
    obtain ⟨rfl, rfl⟩ := origin?_bare.1 ho
    exact absurd (Or.inr ⟨W.rootChildren.2 ⟨node, hn, hparent.symm⟩, rfl⟩) hb

/-- The matches that hold without any fact. -/
theorem Kept.start {agree : Option Value → Option Value → Prop} (hagree : ∀ a, agree a a) :
    Kept net store (.rest net (fun _ _ => False) agree) (Matching.start net store) ∧
    (Matching.start net store).deferred = none := by
  have Q : (Ledger.rest net (fun _ _ => False) agree).Quiet := Ledger.quiet_rest hagree
  obtain ⟨S, M⟩ := Emits.among W (fun c _ => Matching.emits W store c) (fun c hc => W.rootChildren.1 hc) W.nodup_rootChildren
    (Matching.sound_bare W agree) (Matching.stocked_bare store)
    (fun c _ => ⟨Q.calm net c, Q.listed c⟩) Matching.forest_bare.live_root (fun c _ => rfl)
    (fun c _ t e hmade => by
      obtain ⟨depth, ho⟩ := hmade
      obtain ⟨-, heq⟩ := Matching.origin?_bare.1 ho
      cases heq) rfl
  refine ⟨⟨S, (Matching.stocked_bare store).of_alphas M.alphas, ⟨fun {h a} hi => ?_⟩⟩,
    Option.isNone_iff_eq_none.1 (Option.isSome_eq_false_iff.1 M.deferring)⟩
  have hmembers : (Matching.start net store).members = (Matching.bare net).members := M.members
  rw [hmembers] at hi
  exact absurd hi (Matching.members_bare a h)

/-! ## Windows -/

/-- Events that are too old leave their windows. -/
theorem Kept.expireWindows (k : Kept net store x m) (hx : x.Quiet) (hlate : ∀ n i, ¬ x.late n i)
    (now : Moment) {m' : Matching} (hm' : m.expireWindows net store now = m') :
    Kept net store x m' ∧ m'.deferred.isSome = m.deferred.isSome ∧ Evolves net .all m m' := by
  have k' : Kept net store (x.awaits net [] 0 m) m :=
    ⟨k.sound.mono ⟨rfl, rfl, rfl, id, id, fun hl => absurd hl (hlate _ _), id, id⟩, k.stocked,
      k.housed⟩
  have Sw := k'.sweep W hx (Evictions.refl.sweep (Matching.outdated net now)
    (List.range net.alphas.size) (A := fun _ => True) fun _ _ _ _ => trivial)
  have heq : (List.range net.alphas.size).foldl
      (fun m a => (m.outdated net now a).foldl (Matching.evict net store a) m) m = m' := hm'
  rw [heq] at Sw
  refine ⟨⟨Sw.kept.sound.mono ⟨rfl, rfl, rfl, id, id, ?_, id, id⟩, Sw.kept.stocked,
    Sw.kept.housed⟩, Sw.deferring, Sw.evolves.mono fun _ => Or.inl trivial⟩
  rintro n i ⟨-, a, ha, -⟩
  exact absurd ha List.not_mem_nil

end

end RuleNet
