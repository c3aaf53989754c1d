/-
  What is told over the life of a matching.

  * `MatchEvent.formed?`, `MatchEvent.broken?`: the match that came to a terminal, or left it.
  * `Replays.broken_after`, `Replays.nodup_broken`, `Replays.after_iff`: where nothing comes to a terminal
    twice nothing leaves it twice, and what stands there came and did not leave.
  * `Matching.Trail`: a way of strides, and the numbers of the tokens that were made on it.
  * `Matching.FormedOnce`, `Life.formedOnce_of_later`: nothing comes to a terminal twice.
-/
import Mathlib.Data.List.Nodup
import RuleNet.Proofs.Matching.Life

namespace RuleNet

/-! ## Events -/

namespace MatchEvent

/-- The terminal and the token that came to it. -/
def formed? : MatchEvent → Option (TerminalId × TokenId)
  | formed τ t => some (τ, t)
  | broken _ _ => none

/-- The terminal and the token that left it. -/
def broken? : MatchEvent → Option (TerminalId × TokenId)
  | formed _ _ => none
  | broken τ t => some (τ, t)

variable {events : List MatchEvent} {τ : TerminalId} {t : TokenId}

@[simp]
theorem mem_formed : (τ, t) ∈ events.filterMap formed? ↔ formed τ t ∈ events := by
  rw [List.mem_filterMap]
  constructor
  · rintro ⟨event, hevent, heq⟩
    cases event <;> cases heq
    exact hevent
  · exact fun h => ⟨_, h, rfl⟩

@[simp]
theorem mem_broken : (τ, t) ∈ events.filterMap broken? ↔ broken τ t ∈ events := by
  rw [List.mem_filterMap]
  constructor
  · rintro ⟨event, hevent, heq⟩
    cases event <;> cases heq
    exact hevent
  · exact fun h => ⟨_, h, rfl⟩

theorem formed_map (terminals : List TerminalId) (t : TokenId) :
    (terminals.map fun τ => formed τ t).filterMap formed? = terminals.map (·, t) := by
  rw [List.filterMap_map]
  show terminals.filterMap (some ∘ (·, t)) = _
  rw [List.filterMap_eq_map]

theorem formed_map_broken (terminals : List TerminalId) (t : TokenId) :
    (terminals.map fun τ => broken τ t).filterMap formed? = [] := by
  rw [List.filterMap_map]
  exact List.filterMap_eq_nil_iff.2 fun _ _ => rfl

end MatchEvent

namespace Replays

variable {before after : TerminalId → TokenId → Prop} {events : List MatchEvent}

/-- What leaves a terminal stood there, or came before. -/
theorem broken_after (h : Replays before after events) {pre post : List MatchEvent}
    {τ : TerminalId} {t : TokenId} (heq : events = pre ++ .broken τ t :: post) :
    before τ t ∨ .formed τ t ∈ pre := by
  induction pre generalizing before events with
  | nil =>
    subst heq
    exact .inl h.1
  | cons event pre ih =>
    subst heq
    cases event with
    | formed τ' t' =>
      rcases ih h.2 rfl with (hold | ⟨rfl, rfl⟩) | hin
      · exact .inl hold
      · exact .inr List.mem_cons_self
      · exact .inr (List.mem_cons_of_mem _ hin)
    | broken τ' t' =>
      exact (ih h.2 rfl).imp (fun hold => hold.1) (List.mem_cons_of_mem _)

/-- What leaves a terminal leaves it once, if it comes once. -/
theorem nodup_broken (h : Replays before after events)
    (hnodup : (events.filterMap MatchEvent.formed?).Nodup)
    (hnew : ∀ τ t, before τ t → .formed τ t ∉ events) :
    (events.filterMap MatchEvent.broken?).Nodup := by
  induction events generalizing before with
  | nil => exact List.nodup_nil
  | cons event rest ih =>
    cases event with
    | formed τ t =>
      obtain ⟨hno, hrest⟩ := List.nodup_cons.1 hnodup
      refine ih h.2 hrest fun τ' t' hold hin => ?_
      rcases hold with hold | ⟨rfl, rfl⟩
      · exact hnew τ' t' hold (List.mem_cons_of_mem _ hin)
      · exact hno (MatchEvent.mem_formed.2 hin)
    | broken τ t =>
      refine List.nodup_cons.2 ⟨fun hin => ?_, ih h.2 hnodup fun τ' t' hold hin =>
        hnew τ' t' hold.1 (List.mem_cons_of_mem _ hin)⟩
      -- it would have to come in between
      obtain ⟨pre, post, heq⟩ := List.append_of_mem (MatchEvent.mem_broken.1 hin)
      rcases h.2.broken_after heq with hold | hback
      · exact hold.2 ⟨rfl, rfl⟩
      · refine hnew τ t h.1 (List.mem_cons_of_mem _ ?_)
        rw [heq]
        exact List.mem_append_left _ hback

/-- What stands at a terminal stood there or came, and did not leave. -/
theorem after_iff (h : Replays before after events)
    (hnodup : (events.filterMap MatchEvent.formed?).Nodup)
    (hnew : ∀ τ t, before τ t → .formed τ t ∉ events) (τ : TerminalId) (t : TokenId) :
    after τ t ↔ (before τ t ∨ .formed τ t ∈ events) ∧ .broken τ t ∉ events := by
  induction events generalizing before with
  | nil => simp [← h τ t]
  | cons event rest ih =>
    cases event with
    | formed τ' t' =>
      obtain ⟨hno, hrest⟩ := List.nodup_cons.1 hnodup
      rw [ih h.2 hrest fun τ t hold hin => ?_]
      · simp [or_assoc]
      · rcases hold with hold | ⟨rfl, rfl⟩
        · exact hnew τ t hold (List.mem_cons_of_mem _ hin)
        · exact hno (MatchEvent.mem_formed.2 hin)
    | broken τ' t' =>
      rw [ih h.2 hnodup fun τ t hold hin => hnew τ t hold.1 (List.mem_cons_of_mem _ hin)]
      have hno : τ = τ' ∧ t = t' → .formed τ t ∉ rest := by
        rintro ⟨rfl, rfl⟩ hin
        exact hnew τ t h.1 (List.mem_cons_of_mem _ hin)
      simp only [List.mem_cons, MatchEvent.broken.injEq, reduceCtorEq, false_or]
      tauto

end Replays

/-! ## Strides -/

namespace Matching

variable {net : Network} {m m' m'' : Matching} {told : List MatchEvent}

/-- Strides that lead from one matching to another, and the tokens that are made, each under the next
    number. -/
inductive Trail (net : Network) (m : Matching) : List TokenId → Matching → Prop
  | nil : Trail net m [] m
  | made {ts m'} (h : Trail net m ts m') (n : NodeId) (parent : TokenId) (e : Extension) :
    Trail net m (ts ++ [m'.nextToken]) (m'.addToken net n parent e)
  | other {ts m' m''} (h : Trail net m ts m') (hs : Stride net m' m'')
    (hnext : m''.nextToken = m'.nextToken) : Trail net m ts m''

/-- Tokens are numbered one by one. -/
theorem Trail.numbered {ts : List TokenId} (h : Trail net m ts m') :
    ts = List.range' m.nextToken ts.length ∧ m'.nextToken = m.nextToken + ts.length := by
  induction h with
  | nil => exact ⟨rfl, rfl⟩
  | @made ts m' _ n parent e ih =>
    obtain ⟨hts, hnext⟩ := ih
    rw [nextToken_addToken, List.length_append, List.length_singleton, hnext]
    refine ⟨?_, Nat.add_assoc _ _ _⟩
    rw [List.range'_1_concat, ← hts]
  | other _ _ hnext ih => exact ⟨ih.1, hnext.trans ih.2⟩

theorem Course.trail (h : Course net m m') : ∃ ts, Trail net m ts m' := by
  induction h with
  | refl => exact ⟨[], .nil⟩
  | @tail m₁ m₂ _ hs ih =>
    obtain ⟨ts, ht⟩ := ih
    cases hs with
    | write nodes deferred => exact ⟨ts, ht.other (.write m₁ nodes deferred) rfl⟩
    | grow n parent e => exact ⟨_, ht.made n parent e⟩
    | drop t => exact ⟨ts, ht.other (.drop m₁ t) (drops_dropToken m₁ t).nextToken⟩
    | shelve alphas tokensByFact memoriesOf =>
      exact ⟨ts, ht.other (.shelve m₁ alphas tokensByFact memoriesOf) rfl⟩

/-- A stride that tells of anything new makes a token, and tells where it came. -/
theorem Stride.tells (h : Stride net m m') :
    ∃ events, m'.events.toList = m.events.toList ++ events ∧
      (events.filterMap MatchEvent.formed? = [] ∨ ∃ n,
        events = (net.terminalsOf n).map (.formed · m.nextToken) ∧ m.nextToken < m'.nextToken) := by
  cases h with
  | write nodes deferred => exact ⟨[], (List.append_nil _).symm, .inl rfl⟩
  | shelve alphas tokensByFact memoriesOf => exact ⟨[], (List.append_nil _).symm, .inl rfl⟩
  | grow n parent e =>
    refine ⟨_, events_addToken net m n parent e, .inr ⟨n, rfl, ?_⟩⟩
    rw [nextToken_addToken]
    exact Nat.lt_succ_self _
  | drop t =>
    obtain ⟨terminals, hevents⟩ := m.events_dropToken net t
    exact ⟨_, hevents, .inl (MatchEvent.formed_map_broken terminals t)⟩

/-- What is told on a way is of tokens that were made on it. -/
theorem Course.tells (h : Course net m m') : ∃ events, m'.events.toList = m.events.toList ++ events ∧
    ∀ τ t, .formed τ t ∈ events → m.nextToken ≤ t := by
  induction h with
  | refl => exact ⟨[], (List.append_nil _).symm, fun _ _ hin => absurd hin List.not_mem_nil⟩
  | @tail m₁ m₂ hway hs ih =>
    obtain ⟨events, hevents, hnew⟩ := ih
    obtain ⟨events', hevents', hkind⟩ := hs.tells
    refine ⟨events ++ events', by rw [hevents', hevents, List.append_assoc], fun τ t hin => ?_⟩
    rcases List.mem_append.1 hin with hin | hin
    · exact hnew τ t hin
    · rcases hkind with hnone | ⟨n, rfl, -⟩
      · rw [← MatchEvent.mem_formed, hnone] at hin
        exact absurd hin List.not_mem_nil
      · obtain ⟨τ', -, heq⟩ := List.mem_map.1 hin
        cases heq
        exact (Course.survive hway).1

/-- Nothing has come to a terminal twice, and what has come was made before. -/
structure FormedOnce (told : List MatchEvent) (m : Matching) : Prop where
  once : ((told ++ m.events.toList).filterMap MatchEvent.formed?).Nodup
  made : ∀ {τ t}, .formed τ t ∈ told ++ m.events.toList → t < m.nextToken

/-- A stride keeps it so. -/
theorem FormedOnce.stride (W : net.WellFormed) (h : FormedOnce told m) (hs : Stride net m m') :
    FormedOnce told m' := by
  obtain ⟨events, hevents, hnone | ⟨n, rfl, hlt⟩⟩ := hs.tells
  · have hsame : (told ++ m'.events.toList).filterMap MatchEvent.formed? =
        (told ++ m.events.toList).filterMap MatchEvent.formed? := by
      rw [hevents, ← List.append_assoc, List.filterMap_append, hnone, List.append_nil]
    refine ⟨hsame ▸ h.once, fun hin => ?_⟩
    rw [← MatchEvent.mem_formed, hsame, MatchEvent.mem_formed] at hin
    exact Nat.lt_of_lt_of_le (h.made hin) hs.survive.1
  · have hnew : ∀ {τ t}, MatchEvent.formed τ t ∈ (net.terminalsOf n).map (.formed · m.nextToken) →
        t = m.nextToken := fun hin => by
      obtain ⟨τ', -, heq⟩ := List.mem_map.1 hin
      cases heq
      rfl
    constructor
    · rw [hevents, ← List.append_assoc, List.filterMap_append]
      refine h.once.append ?_ ?_
      · rw [MatchEvent.formed_map]
        exact (W.nodup_terminals n).map fun _ _ heq => (Prod.mk.inj heq).1
      · rintro ⟨τ, t⟩ hold hin
        have hlt := h.made (MatchEvent.mem_formed.1 hold)
        exact Nat.ne_of_lt hlt (hnew (MatchEvent.mem_formed.1 hin))
    · intro τ t hin
      rw [hevents, ← List.append_assoc, List.mem_append] at hin
      exact hin.elim (fun hold => Nat.lt_trans (h.made hold) hlt) fun hin => hnew hin ▸ hlt

theorem FormedOnce.course (W : net.WellFormed) (h : FormedOnce told m) (hc : Course net m m') :
    FormedOnce told m' := by
  induction hc with
  | refl => exact h
  | tail _ hs ih => exact ih.stride W hs

theorem formedOnce_bare (W : net.WellFormed) : FormedOnce [] (bare net) := by
  have hevents : (bare net).events.toList = net.rootTerminals.map (.formed · rootToken) := by
    simp [bare, note, empty]
  constructor
  · rw [List.nil_append, hevents, MatchEvent.formed_map]
    exact W.nodup_rootTerminals.map fun _ _ heq => (Prod.mk.inj heq).1
  · intro τ t hin
    rw [List.nil_append, hevents] at hin
    obtain ⟨τ', -, heq⟩ := List.mem_map.1 hin
    cases heq
    exact Nat.zero_lt_one

end Matching

/-! ## Calls -/

namespace Life

variable {net : Network} {l l' : Life}

/-- A call leads by strides to where the events may be taken. -/
theorem Step.course (h : Step net l l') : ∃ m, Matching.Course net l.matching m ∧
    l'.matching = { m with events := l'.matching.events } ∧ l'.stream = l.told ++ m.events.toList := by
  have C := Matching.carries_course net
  cases h with
  | insert fact moment now hidle => exact ⟨_, Matching.course_assert _ _ _, rfl, rfl⟩
  | retract hidle he => exact ⟨_, Matching.course_retract _ _, rfl, rfl⟩
  | remove hleaving hr => exact ⟨_, .refl, rfl, rfl⟩
  | replace fact moment now hleaving hr => exact ⟨_, Matching.course_assert _ _ _, rfl, rfl⟩
  | expire now hidle => exact ⟨_, Matching.course_expireWindows _ _, rfl, rfl⟩
  | beginUpdate => exact ⟨_, C.write l.matching l.matching.nodes _, rfl, rfl⟩
  | endUpdate hidle => exact ⟨_, C.endUpdate _ _, rfl, rfl⟩
  | take => exact ⟨l.matching, .refl, rfl, List.append_nil _⟩

theorem Step.formedOnce (W : net.WellFormed) (h : Step net l l') (hf : l.matching.FormedOnce l.told) :
    l'.matching.FormedOnce l'.told := by
  obtain ⟨m, hc, hm, hstream⟩ := h.course
  have hfresh := hf.course W hc
  have hnext : l'.matching.nextToken = m.nextToken := by rw [hm]
  rw [stream] at hstream
  refine ⟨hstream ▸ hfresh.once, fun hin => ?_⟩
  rw [hstream] at hin
  exact hnext ▸ hfresh.made hin

theorem formedOnce_of_later (W : net.WellFormed) {mode : IdentityMode}
    (h : Later net (start net mode) l) : l.matching.FormedOnce l.told := by
  induction h with
  | refl =>
    have C := Matching.carries_course net
    exact (Matching.formedOnce_bare W).course W
      (C.foldl (fun m n => C.activateLeft (.empty mode) n rootToken m) net.rootChildren _)
  | tail _ hs ih => exact hs.formedOnce W ih

/-! ## What is told -/

/-- What has been told is well formed: a token comes to a terminal once and leaves it once, after it
    came, and has come and not left while it stands there. -/
structure Told (net : Network) (l : Life) : Prop where
  formed : (l.stream.filterMap MatchEvent.formed?).Nodup
  broken : (l.stream.filterMap MatchEvent.broken?).Nodup
  after : ∀ {pre τ t post}, l.stream = pre ++ .broken τ t :: post → .formed τ t ∈ pre
  stands : ∀ {τ t}, (.formed τ t ∈ l.stream ∧ .broken τ t ∉ l.stream) ↔
    ∃ terminal, net.terminal? τ = some terminal ∧ match terminal.node with
      | some n => ∃ token, l.matching.tokens[t]? = some token ∧ token.node = some n
      | none => t = rootToken

theorem told_of_later (W : net.WellFormed) {mode : IdentityMode}
    (h : Later net (start net mode) l) : l.Told net := by
  have R := right_of_later W h
  have hr := R.replays
  have hf := (formedOnce_of_later W h).once
  obtain ⟨base, -, k⟩ := R.kept
  have F := k.sound.forest
  refine ⟨hf, hr.nodup_broken hf fun _ _ => False.elim, fun heq => ?_, fun {τ t} => ?_⟩
  · exact (hr.broken_after heq).resolve_left id
  · have hiff := hr.after_iff hf (fun _ _ => False.elim) τ t
    rw [false_or] at hiff
    rw [← hiff]
    refine exists_congr fun terminal => and_congr_right fun _ => ?_
    cases terminal.node with
    | none => exact ⟨F.eq_root, fun ht => ht ▸ F.live_root⟩
    | some n =>
      constructor
      · rintro ⟨o, ho, hn⟩
        obtain ⟨token, htoken, rfl⟩ := Matching.origin?_eq_some.1 ho
        exact ⟨token, htoken, hn⟩
      · rintro ⟨token, htoken, hn⟩
        exact ⟨_, Matching.origin?_of_live htoken, hn⟩

/-- What is told later is of tokens that were made later, and what lives still is what it was. -/
structure Follows (l l' : Life) : Prop where
  stream : ∃ events, l'.stream = l.stream ++ events ∧
    ∀ τ t, .formed τ t ∈ events → l.matching.nextToken ≤ t
  next : l.matching.nextToken ≤ l'.matching.nextToken
  lives : ∀ {t : TokenId} {token : Token}, l'.matching.tokens[t]? = some token →
    t < l.matching.nextToken →
    ∃ old, l.matching.tokens[t]? = some old ∧ old.origin = token.origin

theorem Step.follows (h : Step net l l') : l.Follows l' := by
  obtain ⟨m, hc, hm, hstream⟩ := h.course
  obtain ⟨hnext, hlives⟩ := hc.survive
  have htokens : l'.matching.tokens = m.tokens := by rw [hm]
  refine ⟨?_, ?_, fun {t token} ht hlt => ?_⟩
  · obtain ⟨events, hevents, hnew⟩ := hc.tells
    exact ⟨events, by rw [hstream, hevents, ← List.append_assoc]; rfl, hnew⟩
  · rw [hm]
    exact hnext
  · rw [htokens] at ht
    exact Matching.origin?_eq_some.1 (hlives hlt (Matching.origin?_of_live ht))

theorem follows_of_later (h : Later net l l') : l.Follows l' := by
  induction h with
  | refl => exact ⟨⟨[], (List.append_nil _).symm, fun _ _ hin => absurd hin List.not_mem_nil⟩,
      Nat.le_refl _, fun ht _ => ⟨_, ht, rfl⟩⟩
  | @tail l₁ l₂ _ hs ih =>
    obtain ⟨⟨events, hevents, hnew⟩, hnext, hlives⟩ := ih
    obtain ⟨⟨events', hevents', hnew'⟩, hnext', hlives'⟩ := hs.follows
    refine ⟨⟨events ++ events', by rw [hevents', hevents, List.append_assoc], fun τ t hin => ?_⟩,
      Nat.le_trans hnext hnext', fun ht hlt => ?_⟩
    · exact (List.mem_append.1 hin).elim (hnew τ t) fun hin => Nat.le_trans hnext (hnew' τ t hin)
    · obtain ⟨mid, hmid, hsame⟩ := hlives' ht (Nat.lt_of_lt_of_le hlt hnext)
      obtain ⟨old, hold, heq⟩ := hlives hmid hlt
      exact ⟨old, hold, heq.trans hsame⟩

end Life

end RuleNet
