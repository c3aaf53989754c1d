/-
  What new activations know of their matches.

  The agenda gets to know of the matches of an alteration when all of it is over, and only then the
  variables of a new activation are read. A match that is still there has the variables that it had when
  it was formed. Of a match that is gone again nothing is left to read, but its activation is gone again
  as well before anything else happens.

  * `Session.Arises`: when the match of a token was formed.
  * `Session.Arises.stays`: a match that is still there is what it was.
  * `Session.Captured`, `Session.Lost`: what an activation knows of a match that is there, or is gone.
  * `Session.accounted_of_later`: every activation that is ever created is of one of these kinds.
  * `Session.totalRun_lost`: an activation that knows nothing of its match.
-/
import RuleNet.Proofs.Session.Bound
import RuleNet.Proofs.Session.Journal
import RuleNet.Proofs.Session.Underway

namespace RuleNet

open Matching (Makes)

/-! ## Tokens that are gone -/

/-- Nothing is left of the variables of a match that is gone. -/
theorem Matching.binding_of_gone {m : Matching} {t : TokenId} (h : m.origin? t = none)
    (store : WorkingMemory) (scope : List (String × Place)) :
    (m.binding store scope t).facts = [] ∧ (m.binding store scope t).handles = [] ∧
      ∀ value ∈ (m.binding store scope t).values, value.2 = .null := by
  have hchain : m.chain t = [] := by
    rw [chain, Option.map_eq_none_iff.1 h]
  have hdepth : ∀ depth, m.atDepth? t depth = none := fun depth => by
    rw [atDepth?, hchain]
    rfl
  have hhandle : ∀ depth, m.handleAt? t depth = none := fun depth => by
    rw [handleAt?, hdepth]
    rfl
  have hnull : ∀ place, (m.view store t).value place = .null := fun place => by
    cases place with
    | field depth name => simp only [view, hhandle]
    | result depth => simp only [view, hdepth, Option.bind_none, Option.getD_none]
    | fact depth => rfl
  refine ⟨List.filterMap_eq_nil_iff.2 fun entry _ => ?_, ?_, fun value hvalue => ?_⟩
  · obtain ⟨name, place⟩ := entry
    cases place with
    | fact depth => simp only [hhandle, Option.map_none]
    | field depth name => rfl
    | result depth => rfl
  · show m.chainHandles t = []
    rw [chainHandles, hchain]
    rfl
  · obtain ⟨⟨name, place⟩, -, heq⟩ := List.mem_filterMap.1 hvalue
    cases place <;> cases heq
    · exact hnull (.field _ _)
    · exact hnull (.result _)

namespace Session

/-! ## Forming -/

/-- The match of a token was formed on the way to a session whose agenda does not know of it yet. The
    facts were those of a store, and the match was the newest one of a matching. -/
inductive Arises (base : RuleBase) (settings : Settings) :
    Session → Option NodeId → TokenId → WorkingMemory → Matching → Prop
  /-- The match that rests on nothing is there from the beginning. -/
  | root (reading : Moment) : Arises base settings (opening base settings reading) none rootToken
      (.empty settings.identityMode) (.bare base.network)
  | start {n t before after} (reading : Moment) (h : Makes base.network (.bare base.network)
        (opening base settings reading).matching n t before after) :
      Arises base settings (opening base settings reading) (some n) t
        (.empty settings.identityMode) after
  | hither {x y : Session} {mid n t before after} (hx : x.Steady) (hb : x.base = base) (ha : x.Alters mid y)
      (h : Makes base.network x.matching mid n t before after) :
      Arises base settings y (some n) t x.store after
  | onward {x y : Session} {mid n t before after} (hx : x.Steady) (hb : x.base = base) (ha : x.Alters mid y)
      (h : Makes base.network mid y.matching n t before after) :
      Arises base settings y (some n) t y.store after

/-- A match is what it was when it was formed, and binds what it bound then. -/
structure Stays (y : Session) (t : TokenId) (store : WorkingMemory) (m : Matching) : Prop where
  matchOf : m.matchOf t = y.matching.matchOf t
  facts : ∀ i ∈ (y.matching.matchOf t).handles, store.entry? i = y.store.entry? i
  binding : ∀ scope, m.binding store scope t = y.matching.binding y.store scope t

variable {declarations : Declarations} {base : RuleBase} {settings : Settings} {s t y : Session}
  {node : Option NodeId} {token : TokenId} {store : WorkingMemory} {m : Matching} {o : Origin}

/-- The matching of a session without facts goes by strides from one that has nothing but the root. -/
theorem course_opening (base : RuleBase) (settings : Settings) (reading : Moment) :
    Matching.Course base.network (.bare base.network) (opening base settings reading).matching := by
  have C := Matching.carries_course base.network
  exact C.foldl (fun m n => C.activateLeft _ n rootToken m) _ _

namespace Arises

/-- From there the matches have gone on by strides. -/
theorem course (h : Arises base settings y node token store m) :
    Matching.Course base.network m y.matching ∧ token < m.nextToken ∧
      ∃ o, m.origin? token = some o ∧ o.node = node := by
  cases h with
  | root reading =>
    exact ⟨course_opening base settings reading, Nat.lt_succ_self _, _,
      Matching.origin?_bare.2 ⟨rfl, rfl⟩, rfl⟩
  | start reading h => exact ⟨h.onward, h.origin⟩
  | hither hx hb ha h =>
    subst hb
    exact ⟨h.onward.trans ha.onward, h.origin⟩
  | onward hx hb ha h => exact ⟨h.onward, h.origin⟩

/-- A match that is still there rests on facts that have not changed since. -/
theorem facts (W : base.network.WellFormed) (h : Arises base settings y node token store m)
    (F : y.matching.Forest base.network) (ho : y.matching.origin? token = some o) :
    ∀ i ∈ (y.matching.matchOf token).handles, store.entry? i = y.store.entry? i := by
  cases h with
  | root reading => exact fun _ _ => rfl
  | start reading h => exact fun _ _ => rfl
  | @hither x y mid n token before after hx hb ha h =>
    subst hb
    have hlt : token < mid.nextToken := Nat.lt_of_lt_of_le h.origin.1 h.onward.survive.1
    have hchain := ha.onward.chain F ho hlt
    rw [← Matching.matchOf_eq_of_chain hchain]
    exact fun i hi => ((ha.proceeds hx W).facts hlt ho i hi).symm
  | onward hx hb ha h => exact fun _ _ => rfl

/-- A match that is still there is what it was. -/
theorem stays (W : base.network.WellFormed) (h : Arises base settings y node token store m)
    (F : y.matching.Forest base.network) (ho : y.matching.origin? token = some o) :
    y.Stays token store m := by
  obtain ⟨hcourse, hlt, -⟩ := h.course
  have hchain := hcourse.chain F ho hlt
  have hfacts := h.facts W F ho
  refine ⟨Matching.matchOf_eq_of_chain hchain, hfacts, fun scope => ?_⟩
  calc m.binding store scope token
      = y.matching.binding store scope token := Matching.binding_congr hchain store scope
    _ = (y.matching.matchOf token).binding store scope := Matching.binding_eq W F ho store scope
    _ = (y.matching.matchOf token).binding y.store scope := Match.binding_congr scope hfacts
    _ = y.matching.binding y.store scope token := (Matching.binding_eq W F ho y.store scope).symm

/-- Its token is one of the node that made it. -/
theorem live (h : Arises base settings y node token store m)
    (ho : y.matching.origin? token = some o) : y.matching.LiveAt token node := by
  obtain ⟨hcourse, hlt, o', ho', hnode⟩ := h.course
  cases ho'.symm.trans (hcourse.survive.2 hlt ho)
  exact ⟨_, ho, hnode⟩

end Arises

/-- What an alteration tells to have come to a terminal was formed in its course. -/
theorem Alters.arises {mid : Matching} (h : s.Alters mid y) (hs : s.Steady) (hb : s.base = base)
    (W : base.network.WellFormed) {τ : TerminalId} {terminal : Terminal}
    (hτ : .formed τ token ∈ y.matching.events.toList)
    (hterminal : base.network.terminal? τ = some terminal) :
    ∃ store m, Arises base settings y terminal.node token store m := by
  subst hb
  rcases h.onward.formed_at W hterminal hτ with hτ | ⟨n, before, after, hnode, M⟩
  · rcases h.hither.formed_at W hterminal hτ with hτ | ⟨n, before, after, hnode, M⟩
    · rw [hs.told] at hτ
      cases hτ
    · rw [hnode]
      exact ⟨_, _, .hither hs rfl h M⟩
  · rw [hnode]
    exact ⟨_, _, .onward hs rfl h M⟩

/-- So it is where a session starts. -/
theorem arises_opening (W : base.network.WellFormed) (reading : Moment) {τ : TerminalId}
    {terminal : Terminal} (hτ : .formed τ token ∈ (opening base settings reading).matching.events.toList)
    (hterminal : base.network.terminal? τ = some terminal) :
    ∃ store m, Arises base settings (opening base settings reading) terminal.node token store m := by
  rcases (course_opening base settings reading).formed_at W hterminal hτ with
    hτ | ⟨n, before, after, hnode, M⟩
  · have hevents : (Matching.bare base.network).events.toList =
        [] ++ base.network.rootTerminals.map fun τ => .formed τ rootToken := Array.toList_appendList
    rw [hevents] at hτ
    obtain ⟨τ', hroot, heq⟩ := List.mem_map.1 hτ
    cases heq
    obtain ⟨terminal', hterminal', hnode⟩ := W.rootTerminals.1 hroot
    cases hterminal.symm.trans hterminal'
    rw [hnode]
    exact ⟨_, _, .root reading⟩
  · rw [hnode]
    exact ⟨_, _, .start reading M⟩

/-! ## Hearing -/

/-- What the agenda and the journal get to know of events. -/
structure Hears (v w : Session) (due : List MatchEvent) (events : List JournalEvent) : Prop where
  journal : w.journal.toList = v.journal.toList ++ events
  created : ∀ a, .created a ∈ events → ∃ terminal, .formed a.terminal a.token ∈ due ∧
    v.network.terminal? a.terminal = some terminal ∧ a.rule = terminal.rule ∧
    a.binding = v.matching.binding v.store terminal.scope a.token
  idle : ∀ a, .firing a ∉ events

theorem Hears.silent {v w : Session} {due : List MatchEvent} (h : w.journal = v.journal) :
    v.Hears w due [] where
  journal := by rw [h, List.append_nil]
  created _ ha := absurd ha List.not_mem_nil
  idle _ := List.not_mem_nil

/-- What is heard of the first event, and of the others. -/
theorem Hears.cons {v u w : Session} {event : MatchEvent} {due : List MatchEvent}
    {events events' : List JournalEvent} (A : v.Aligned u) (h : v.Hears u [event] events)
    (h' : u.Hears w due events') : v.Hears w (event :: due) (events ++ events') where
  journal := by rw [h'.journal, h.journal, List.append_assoc]
  created a ha := by
    rcases List.mem_append.1 ha with ha | ha
    · obtain ⟨terminal, hmem, hrest⟩ := h.created a ha
      exact ⟨terminal, List.mem_cons.2 (.inl (List.mem_singleton.1 hmem)), hrest⟩
    · obtain ⟨terminal, hmem, hτ, hrule, hbinding⟩ := h'.created a ha
      rw [network, A.base] at hτ
      rw [A.matching, A.store] at hbinding
      exact ⟨terminal, List.mem_cons_of_mem _ hmem, hτ, hrule, hbinding⟩
  idle a ha := (List.mem_append.1 ha).elim (h.idle a) (h'.idle a)

theorem hears_activate (v : Session) (τ : TerminalId) (token : TokenId) :
    ∃ events, v.Hears (v.activate τ token) [.formed τ token] events := by
  rcases v.activate_cases τ token with ⟨-, heq⟩ | ⟨terminal, rule, hτ, -, ⟨-, heq⟩ | ⟨-, heq⟩⟩ <;> rw [heq]
  · exact ⟨[], .silent rfl⟩
  · exact ⟨[], .silent rfl⟩
  · refine ⟨[_], Array.toList_push, fun a ha => ?_, fun a ha => by cases List.mem_singleton.1 ha⟩
    cases List.mem_singleton.1 ha
    exact ⟨terminal, List.mem_cons_self, hτ, rfl, rfl⟩

theorem hears_deactivate (v : Session) (τ : TerminalId) (token : TokenId) :
    ∃ events, v.Hears (v.deactivate τ token) [.broken τ token] events := by
  unfold deactivate
  dsimp only
  split
  · refine ⟨[_], Array.toList_push, fun a ha => ?_, fun a ha => ?_⟩ <;> cases List.mem_singleton.1 ha
  · exact ⟨[], .silent rfl⟩

theorem hears_each (due : List MatchEvent) (v : Session) :
    ∃ events, v.Hears (due.foldl applyEvent v) due events := by
  induction due generalizing v with
  | nil => exact ⟨[], .silent rfl⟩
  | cons event rest ih =>
    cases event with
    | formed τ token =>
      obtain ⟨events, h⟩ := hears_activate v τ token
      obtain ⟨events', h'⟩ := ih (v.activate τ token)
      exact ⟨_, h.cons (aligned_activate v τ token) h'⟩
    | broken τ token =>
      obtain ⟨events, h⟩ := hears_deactivate v τ token
      obtain ⟨events', h'⟩ := ih (v.deactivate τ token)
      exact ⟨_, h.cons (aligned_deactivate v τ token) h'⟩

/-! ## New activations -/

/-- An activation has the variables of its match at the moment when it was formed: those of a branch of its
    rule, whose patterns are met by one fact each. -/
structure Captured (base : RuleBase) (terminal : Terminal) (store : WorkingMemory) (m : Matching)
    (a : Activation) : Prop where
  binding : a.binding = m.binding store terminal.scope a.token
  binds : ∃ branch, BranchOf base.rules a.rule branch ∧
    Binds store branch (m.matchOf a.token) .empty a.binding ∧
    a.binding.handles.length = branch.countP Element.isPattern

/-- An activation knows nothing of its match, and it is cancelled again. -/
structure Lost (later : List JournalEvent) (a : Activation) : Prop where
  facts : a.binding.facts = []
  handles : a.binding.handles = []
  values : ∀ value ∈ a.binding.values, value.2 = .null
  cancelled : .cancelled { a with state := .cancelled } ∈ later

/-- How an activation has come about. Its match was formed on the way to a session whose agenda did not
    know of it yet. When the agenda got to know, the match was either still there, and its variables were
    captured, or it was gone, and the activation went as well before the agenda knew everything. -/
def Accounted (base : RuleBase) (settings : Settings) (before : List JournalEvent) (a : Activation)
    (after : List JournalEvent) : Prop :=
  ∃ (y : Session) (terminal : Terminal) (store : WorkingMemory) (m : Matching)
    (later : List JournalEvent), Arises base settings y terminal.node a.token store m ∧
    base.network.terminal? a.terminal = some terminal ∧ a.rule = terminal.rule ∧
    y.journal.toList <+: before ∧
    y.applyEvents.journal.toList = before ++ .created a :: later ∧ later <+: after ∧
    ((y.matching.LiveAt a.token terminal.node ∧ Captured base terminal store m a) ∨
      (y.matching.origin? a.token = none ∧ Lost later a))

/-- All new activations among some events are accounted for. -/
def Explained (base : RuleBase) (settings : Settings) (past events : List JournalEvent) : Prop :=
  ∀ before a after, events = before ++ .created a :: after →
    Accounted base settings (past ++ before) a after

variable {a : Activation} {past before after events events' : List JournalEvent} {terminal : Terminal}

theorem Accounted.append (h : Accounted base settings before a after) (more : List JournalEvent) :
    Accounted base settings before a (after ++ more) := by
  obtain ⟨y, terminal, store, m, later, ha, hτ, hrule, hbefore, hlater, hafter, h⟩ := h
  exact ⟨y, terminal, store, m, later, ha, hτ, hrule, hbefore, hlater,
    hafter.trans (List.prefix_append after more), h⟩

theorem Explained.of_none (h : ∀ a, .created a ∉ events) : Explained base settings past events :=
  fun before a after heq => absurd (by simp [heq]) (h a)

theorem Explained.append (h : Explained base settings past events)
    (h' : Explained base settings (past ++ events) events') :
    Explained base settings past (events ++ events') := fun before a after heq => by
  rcases List.append_eq_append_iff.1 heq with ⟨skipped, rfl, hrest⟩ | ⟨rest, rfl, hrest⟩
  · rw [← List.append_assoc]
    exact h' skipped a after hrest
  · cases rest with
    | nil =>
      have hnow := h' [] a after hrest.symm
      rwa [List.append_nil, List.append_nil] at hnow
    | cons event rest =>
      cases hrest
      exact (h before a rest rfl).append events'

/-- The variables of a match that is still there are captured. -/
theorem captured (hb : declarations.build = .ok base) (hy : y.base = base)
    (hs : y.applyEvents.Steady) (hτ : base.network.terminal? a.terminal = some terminal)
    (hrule : a.rule = terminal.rule)
    (hbinding : a.binding = y.matching.binding y.store terminal.scope a.token)
    (h : Arises base settings y terminal.node a.token store m) (F : y.matching.Forest base.network)
    (ho : y.matching.origin? a.token = some o) : Captured base terminal store m a := by
  have W := Declarations.wellFormed_build hb
  have N : base.types.Named := by
    rw [(Declarations.build_eq hb).2]
    exact declarations.named_typesOf
  have A : y.taken.Aligned y.applyEvents := aligned_applyEvents y
  have hnet : y.applyEvents.network = base.network := by rw [network, A.base]; exact congrArg _ hy
  have S := h.stays W F ho
  obtain ⟨branch, hbranch, hdraws⟩ := (Declarations.carries_build hb).drawn hτ
  have hlive : y.applyEvents.matching.LiveAt a.token terminal.node := by
    rw [A.matching]
    exact h.live ho
  have hbears := hs.bears (hnet ▸ W) hlive
  rw [hnet, ← Network.branchOf_eq] at hbears
  have hmatch : y.applyEvents.matching.matchOf a.token = m.matchOf a.token := by
    rw [A.matching, S.matchOf]
    exact congrFun (@Matching.matchOf_congr y.matching y.taken.matching rfl) _
  have hstore : y.applyEvents.store = y.store := A.store
  rw [hmatch, hstore] at hbears
  have hbinds : Binds store branch (m.matchOf a.token) .empty a.binding := by
    rw [hbinding, Matching.binding_eq W F ho, ← S.matchOf]
    exact (hdraws.binds N hbears).congr (S.matchOf ▸ S.facts)
  refine ⟨hbinding.trans (S.binding _).symm, branch, hrule ▸ hbranch, hbinds, ?_⟩
  rw [hbinds.length_handles]
  exact Nat.zero_add _

/-- What the agenda gets to know of a session whose matches are right is accounted for. -/
theorem explained (hb : declarations.build = .ok base) (settings : Settings) (hy : y.base = base)
    {told : TerminalId → TokenId → Prop} (hf : y.taken.Follows told)
    (hr : Replays told (y.matching.Stands y.network) y.matching.events.toList)
    (hs : y.applyEvents.Steady)
    (harises : ∀ {τ token terminal}, .formed τ token ∈ y.matching.events.toList →
      base.network.terminal? τ = some terminal →
      ∃ store m, Arises base settings y terminal.node token store m) :
    ∃ events, y.applyEvents.journal.toList = y.journal.toList ++ events ∧
      Explained base settings y.journal.toList events := by
  have A := aligned_applyEvents y
  have hnet : y.network = base.network := congrArg _ hy
  have F : y.matching.Forest base.network := by
    have F := hs.kept.sound.forest
    rw [network, A.base, A.matching] at F
    exact hnet ▸ F.congr rfl rfl
  obtain ⟨events, H⟩ := hears_each y.matching.events.toList y.taken
  obtain ⟨events', T⟩ := hf.recounts none hr
  obtain rfl : events' = events := List.append_cancel_left (T.journal.symm.trans H.journal)
  refine ⟨events', H.journal, fun before a after heq => ?_⟩
  subst heq
  obtain ⟨terminal, hformed, hτ, hrule, hbinding⟩ := H.created a (by simp)
  have hτ : base.network.terminal? a.terminal = some terminal := hnet ▸ hτ
  have hchain := @Matching.chain_congr y.matching y.taken.matching rfl a.token
  have hbinding : a.binding = y.matching.binding y.store terminal.scope a.token :=
    hbinding.trans (Matching.binding_congr (congrArg (List.map Token.origin) hchain) _ _)
  obtain ⟨store, m, ha⟩ := harises hformed hτ
  refine ⟨y, terminal, store, m, after, ha, hτ, hrule, List.prefix_append _ _, ?_, List.prefix_rfl, ?_⟩
  · rw [List.append_assoc]
    exact H.journal
  · cases ho : y.matching.origin? a.token with
    | some o => exact .inl ⟨ha.live ho, captured hb hy hs hτ hrule hbinding ha F ho⟩
    | none =>
      obtain ⟨hfacts, hhandles, hvalues⟩ := Matching.binding_of_gone ho y.store terminal.scope
      refine .inr ⟨rfl, hbinding ▸ hfacts, hbinding ▸ hhandles, hbinding ▸ hvalues, ?_⟩
      -- if the activation were waiting in the end, its token would be there
      rcases Follower.created_stays_or_goes T.replay with hstays | hcancelled | hfiring
      · obtain ⟨terminal', rule, -, ⟨o, ho', -⟩, -⟩ := hs.current hstays
        rw [A.matching] at ho'
        exact absurd (ho.symm.trans ho') (by simp)
      · exact hcancelled
      · exact absurd (List.mem_append_right _ (List.mem_cons_of_mem _ hfiring)) (H.idle _)

/-! ## Runs -/

/-- A session goes on under its rules, and the new activations that it tells of are accounted for. -/
def Accounts (base : RuleBase) (settings : Settings) (s t : Session) : Prop :=
  s.base = base → t.base = base ∧ ∃ events, t.journal.toList = s.journal.toList ++ events ∧
    Explained base settings s.journal.toList events

/-- No new activation is told of. -/
theorem Accounts.of_none (hbase : t.base = s.base)
    (hjournal : t.journal.toList = s.journal.toList ++ events) (hnone : ∀ a, .created a ∉ events) :
    s.Accounts base settings t :=
  fun hb => ⟨hbase.trans hb, events, hjournal, .of_none hnone⟩

/-- Nothing is told at all. -/
theorem Accounts.silent (hbase : t.base = s.base) (hjournal : t.journal = s.journal) :
    s.Accounts base settings t :=
  .of_none hbase (by rw [hjournal, List.append_nil]) fun _ => List.not_mem_nil

theorem Accounts.trans {u : Session} (h : s.Accounts base settings t)
    (h' : t.Accounts base settings u) : s.Accounts base settings u := fun hb => by
  obtain ⟨ht, events, hjournal, hevents⟩ := h hb
  obtain ⟨hu, events', hjournal', hevents'⟩ := h' ht
  refine ⟨hu, events ++ events', ?_, hevents.append (hjournal ▸ hevents')⟩
  rw [hjournal', hjournal, List.append_assoc]

/-- Along every change new activations are accounted for. -/
theorem conveys_accounts (hb : declarations.build = .ok base) (settings : Settings) :
    Conveys (Accounts base settings) := by
  refine conveys_alters (fun _ => .silent rfl rfl) .trans (fun _ _ _ => .silent rfl rfl)
    fun {s mid y} hs W ha hbase => ?_
  obtain ⟨hy, -, -, -, told, hjournal, hnone⟩ := ha.aside
  have U := ha.unapplied hs W
  have hnet : y.network = s.network := by rw [network, hy]
  have hr : Replays (s.matching.Stands s.network) (y.matching.Stands y.network)
      y.matching.events.toList := hnet ▸ U.kept.sound.told
  obtain ⟨events, hevents, E⟩ := explained hb settings (hy.trans hbase) (hs.follows W U) hr
    (hs.applyEvents W U).steady fun hτ => ha.arises hs hbase (Declarations.wellFormed_build hb) hτ
  refine ⟨(hs.applyEvents W U).base.trans hbase, told ++ events, ?_, ?_⟩
  · rw [hevents, hjournal, List.append_assoc]
  · exact Explained.append (.of_none fun a hmem => (hnone _ hmem a).1 rfl) (hjournal ▸ E)

/-- The new activations of the start are accounted for. -/
theorem explained_start (hb : declarations.build = .ok base) (settings : Settings) (reading : Moment) :
    Explained base settings [] (start base settings reading).journal.toList := by
  have W := Declarations.wellFormed_build hb
  have k := (@Kept.start base.network (.empty settings.identityMode) W _
    settings.updatePolicy.agree_refl).1
  obtain ⟨events, hevents, E⟩ := explained hb settings rfl (follows_opening base settings reading)
    k.sound.told (steady_start W settings reading).1 fun hτ => arises_opening W reading hτ
  have hjournal : (start base settings reading).journal.toList = [] ++ events := hevents
  rw [hjournal]
  exact E

/-- Along every step new activations are accounted for. -/
theorem accounts_step (hb : declarations.build = .ok base) (settings : Settings) {u v : Stage}
    (h : u.Step v) (hs : u.session.Steady) (W : u.session.network.WellFormed) :
    u.session.Accounts base settings v.session := by
  cases h with
  | change s r c => exact (conveys_accounts hb settings).change hs W c
  | synchronize s r => exact (conveys_accounts hb settings).synchronize hs W
  | setFocus s r group => exact .silent rfl rfl
  | popFocus s r => exact .silent rfl rfl
  | clearGroup s r group =>
    refine .of_none (by rw [clearGroup_eq]) (by rw [clearGroup_eq]; exact Array.toList_appendList)
      fun a ha => ?_
    obtain ⟨b, -, heq⟩ := List.mem_map.1 ha
    cases heq
  | unlock s r => exact .silent rfl rfl
  | share s r globals => exact .silent rfl rfl
  | halt s r halted => exact .silent rfl rfl
  | read s r reading hr => exact .silent rfl rfl
  | begin s a agenda hp =>
    exact .of_none rfl Array.toList_push fun b hb => by cases List.mem_singleton.1 hb
  | finish s a firing event hended =>
    refine .of_none rfl Array.toList_push fun b hb => ?_
    cases List.mem_singleton.1 hb
    cases hended

/-- Every activation that is ever created, whatever a session is asked and whatever its actions do, is
    accounted for: either it has the variables of its match at the moment when this was formed, or the
    match was gone again when the agenda got to know of it, and then the activation knows nothing and is
    cancelled before anything else is done. -/
theorem accounted_of_later (hb : declarations.build = .ok base) {reading : Moment} {r : Option Activation}
    (h : Stage.Later ⟨start base settings reading, none⟩ ⟨s, r⟩)
    (hs : s.journal.toList = before ++ .created a :: after) :
    Accounted base settings before a after := by
  have W := Declarations.wellFormed_build hb
  have hall : ∀ {y}, Stage.Later ⟨start base settings reading, none⟩ y →
      Reached base settings y.session ∧ Explained base settings [] y.session.journal.toList := by
    intro y hy
    induction hy with
    | refl => exact ⟨.start reading, explained_start hb settings reading⟩
    | tail _ hstep ih =>
      obtain ⟨hreached, E⟩ := ih
      obtain ⟨hsteady, hbase, -⟩ := hreached.steady W
      obtain ⟨-, events, hjournal, E'⟩ :=
        accounts_step hb settings hstep hsteady (by rw [network, hbase]; exact W) hbase
      exact ⟨hreached.step hstep.session, hjournal ▸ E.append E'⟩
  exact (hall h).2 before a after hs

/-- The prices of all items are summed up for each order. -/
def totals : Declarations where
  types := [⟨"order", [("id", .integer)], .fact, none, none⟩,
    ⟨"item", [("price", .integer)], .fact, none, none⟩]
  rules := [⟨"total", 0, mainGroup, false, false, false,
    .all [.pattern ⟨"order", some "o", [], [("x", "id")], none⟩,
      .accumulate ⟨⟨"item", none, [], [], none⟩, .sum "price", "n", none⟩], fun _ => .done⟩]
  queries := []

/-- An order and an item have come, and then the price of the item has changed. -/
def totalRun (base : RuleBase) : Session :=
  [.insert ⟨"order", [("id", .integer 7)]⟩, .insert ⟨"item", [("price", .integer 1)]⟩,
    .update 2 ⟨"item", [("price", .integer 2)]⟩].foldl change
    (start base { Settings.standard with clock := .manual } 0)

/-- An event tells of a new activation that binds just this. -/
def createsWith (binding : Binding) : JournalEvent → Bool
  | .created a => decide (a.rule = 0 ∧ a.binding = binding)
  | _ => false

theorem exists_of_createsWith {binding : Binding} {events : List JournalEvent}
    (h : events.any (createsWith binding) = true) : ∃ before a after,
      events = before ++ .created a :: after ∧ a.rule = 0 ∧ a.binding = binding := by
  obtain ⟨event, hmem, hcreates⟩ := List.any_eq_true.1 h
  obtain ⟨before, after, heq⟩ := List.append_of_mem hmem
  cases event <;> try cases hcreates
  case created a => exact ⟨before, a, after, heq, of_decide_eq_true hcreates⟩

/-- A total rests on one order. -/
theorem countP_totals {branch : List Element} (h : BranchOf totals.rules 0 branch) :
    branch.countP Element.isPattern = 1 := by
  obtain ⟨rule, branches, hrule, hbranches, hmem⟩ := h
  cases hrule
  cases hbranches
  cases List.mem_singleton.1 hmem
  rfl

theorem later_totalRun (base : RuleBase) :
    Stage.Later ⟨start base { Settings.standard with clock := .manual } 0, none⟩ ⟨totalRun base, none⟩ :=
  .changes _ _ none

/-- The total without the item is gone when the agenda gets to know of it, and the one with the new price
    is there. -/
theorem accounted_of_later_totalRun : ∃ base lost kept, totals.build = .ok base ∧
    Stage.Later ⟨start base { Settings.standard with clock := .manual } 0, none⟩ ⟨totalRun base, none⟩ ∧
    (∃ before after, (totalRun base).journal.toList = before ++ .created lost :: after ∧
      Accounted base { Settings.standard with clock := .manual } before lost after ∧
      .cancelled { lost with state := .cancelled } ∈ after) ∧
    ∃ before after, (totalRun base).journal.toList = before ++ .created kept :: after ∧
      Accounted base { Settings.standard with clock := .manual } before kept after ∧
      kept.binding = ⟨[("o", 1)], [("n", .integer 2), ("x", .integer 7)], [1]⟩ := by
  obtain ⟨base, hb, hrun⟩ := Declarations.build_of_passes totals (fun base =>
    (totalRun base).journal.toList.any (createsWith ⟨[], [("n", .null), ("x", .null)], []⟩) &&
      (totalRun base).journal.toList.any
        (createsWith ⟨[("o", 1)], [("n", .integer 2), ("x", .integer 7)], [1]⟩)) (by decide +kernel)
  obtain ⟨hlost, hkept⟩ := Bool.and_eq_true_iff.1 hrun
  obtain ⟨before, lost, after, heq, hplace, hbinding⟩ := exists_of_createsWith hlost
  obtain ⟨before', kept, after', heq', -, hbinding'⟩ := exists_of_createsWith hkept
  have h := accounted_of_later hb (later_totalRun base) heq
  have hcancelled : .cancelled { lost with state := .cancelled } ∈ after := by
    obtain ⟨y, terminal, store, m, later, -, -, -, -, -, hafter, ⟨-, C⟩ | ⟨-, L⟩⟩ := h
    · obtain ⟨branch, hbranch, -, hlength⟩ := C.binds
      rw [(Declarations.build_eq hb).2, hplace] at hbranch
      rw [countP_totals hbranch, hbinding] at hlength
      cases hlength
    · exact hafter.subset L.cancelled
  exact ⟨base, lost, kept, hb, later_totalRun base, ⟨before, after, heq, h, hcancelled⟩, before', after',
    heq', accounted_of_later hb (later_totalRun base) heq', hbinding'⟩

/-- An activation is created whose binding is that of no match of its rule. -/
theorem totalRun_lost : ∃ base before a after, totals.build = .ok base ∧
    Stage.Later ⟨start base { Settings.standard with clock := .manual } 0, none⟩ ⟨totalRun base, none⟩ ∧
    (totalRun base).journal.toList = before ++ .created a :: after ∧
    ∀ branch store μ, BranchOf base.rules a.rule branch → ¬ Binds store branch μ .empty a.binding := by
  obtain ⟨base, hb, hrun⟩ := Declarations.build_of_passes totals (fun base =>
    (totalRun base).journal.toList.any (createsWith ⟨[], [("n", .null), ("x", .null)], []⟩))
    (by decide +kernel)
  obtain ⟨before, a, after, heq, hplace, hbinding⟩ := exists_of_createsWith hrun
  refine ⟨base, before, a, after, hb, later_totalRun base, heq, fun branch store μ hbranch hbinds => ?_⟩
  have hlength := hbinds.length_handles
  rw [(Declarations.build_eq hb).2, hplace] at hbranch
  rw [countP_totals hbranch, hbinding] at hlength
  cases hlength

end Session

end RuleNet
