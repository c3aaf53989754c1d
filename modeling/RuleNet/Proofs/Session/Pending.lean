/-
  What waits on the agenda, compared with the matches.

  * `Session.InStep`: waiting activations belong to live tokens, each to one of its own, and hold
    what these tokens bind now.
  * `Session.inStep_of_reached`: so it is in every session that requests lead to, and while the
    action of a rule runs.
-/
import RuleNet.Proofs.Network.Compile
import RuleNet.Proofs.Session.Reached

namespace RuleNet

/-- The facts that variables are bound to are facts of the match. -/
theorem Match.mem_facts {store : WorkingMemory} {scope : List (String × Place)} {μ : Match}
    {v : String × Handle} (h : v ∈ (μ.binding store scope).facts) : v.2 ∈ μ.handles := by
  obtain ⟨⟨name, place⟩, -, hv⟩ := List.mem_filterMap.1 h
  cases place with
  | fact depth =>
    obtain ⟨i, hi, rfl⟩ := Option.map_eq_some_iff.1 hv
    rw [Match.handleAt?] at hi
    obtain ⟨e, he, hh⟩ := Option.bind_eq_some_iff.1 hi
    cases depth with
    | zero => cases he
    | succ depth => exact List.mem_filterMap.2 ⟨e, List.mem_of_getElem? he, hh⟩
  | field depth field => cases hv
  | result depth => cases hv

namespace Session

variable {s : Session}

/-- The agenda keeps step with the matches. -/
structure InStep (s : Session) : Prop where
  /-- A waiting activation belongs to a live token of its terminal's node, or to the root token if
      its branch is empty, and holds what this token binds now. -/
  stands : ∀ a ∈ s.agenda.pending, ∃ terminal, s.network.terminal? a.terminal = some terminal ∧
    s.matching.LiveAt a.token terminal.node ∧ (terminal.node = none → a.token = rootToken) ∧
    a.binding = s.matching.binding s.store terminal.scope a.token
  nodup : s.agenda.pending.Nodup
  distinct : ∀ a ∈ s.agenda.pending, ∀ b ∈ s.agenda.pending,
    (a.terminal, a.token) = (b.terminal, b.token) → a = b
  handles : ∀ a ∈ s.agenda.pending, ∀ i ∈ a.binding.handles, s.store.contains i = true
  facts : ∀ a ∈ s.agenda.pending, ∀ v ∈ a.binding.facts, s.store.contains v.2 = true

/-- The facts of a match are live. -/
theorem Steady.live (h : s.Steady) {t : TokenId} {o : Origin} (ho : s.matching.origin? t = some o)
    {i : Handle} (hi : i ∈ (s.matching.matchOf t).handles) : s.store.contains i = true := by
  obtain ⟨a, ha⟩ := h.kept.sound.mem_handles (fun _ _ hb => hb) (fun _ _ hl => hl) ho i hi
  obtain ⟨alpha, entry, -, he, -⟩ := h.kept.stocked.typed ha
  exact WorkingMemory.contains_iff.2 ⟨entry, he⟩

theorem Steady.inStep (h : s.Steady) (W : s.network.WellFormed) : s.InStep := by
  have F := h.kept.sound.forest
  -- what a waiting activation binds is what its token's match binds
  have hmatch : ∀ a ∈ s.agenda.pending, ∃ o scope, s.matching.origin? a.token = some o ∧
      a.binding = (s.matching.matchOf a.token).binding s.store scope := fun a ha => by
    obtain ⟨id, hid⟩ := h.agenda.mem_pending.1 ha
    obtain ⟨terminal, rule, -, ⟨o, ho, -⟩, hbinding⟩ := h.current hid
    exact ⟨o, terminal.scope, ho, hbinding.trans (Matching.binding_eq W F ho s.store terminal.scope)⟩
  constructor
  · intro a ha
    obtain ⟨id, hid⟩ := h.agenda.mem_pending.1 ha
    obtain ⟨terminal, rule, hf, hlive, hbinding⟩ := h.current hid
    exact ⟨terminal, hf.ends, hlive, fun hn => F.eq_root (hn ▸ hlive), hbinding⟩
  · exact h.agenda.nodup_pending
  · intro a ha b hb hkey
    rw [Prod.mk.injEq] at hkey
    exact h.agenda.unique ha hb hkey.1 hkey.2
  · intro a ha i hi
    obtain ⟨o, scope, ho, hbinding⟩ := hmatch a ha
    rw [hbinding] at hi
    exact h.live ho hi
  · intro a ha v hv
    obtain ⟨o, scope, ho, hbinding⟩ := hmatch a ha
    rw [hbinding] at hv
    exact h.live ho (Match.mem_facts hv)

/-- Agenda and matches never drift apart: they are in step after every request, after a whole firing
    cycle, and after every request of an action that is still running. -/
theorem inStep_of_reached {declarations : Declarations} {base : RuleBase} {settings : Settings}
    (hb : declarations.build = .ok base) (hs : Reached base settings s) :
    s.InStep ∧ (∀ c, (s.change c).InStep) ∧ (∀ action, (perform action s).2.InStep) ∧
      (∀ limit, (s.fireAll limit).2.InStep) ∧ ∀ request, (s.serve request).2.InStep := by
  have hin : ∀ {s' : Session}, Reached base settings s' → s'.InStep := fun hs' => by
    obtain ⟨hsteady, hbase, -⟩ := hs'.steady (Declarations.wellFormed_build hb)
    exact hsteady.inStep (by rw [network, hbase]; exact Declarations.wellFormed_build hb)
  exact ⟨hin hs, fun c => hin (hs.change c), fun action => hin (hs.perform action),
    fun limit => hin (hs.fireAll limit), fun request => hin (hs.serve request)⟩

end Session

/-! ## A rule with a window -/

/-- Events are matched with states that the latest event does not name. -/
def Declarations.unnamed : Declarations where
  types := [⟨"state", [("id", .integer)], .fact, none, none⟩,
    ⟨"event", [("name", .integer)], .event, none, none⟩]
  rules := [⟨"pair", 0, mainGroup, false, false, false,
    .all [.pattern ⟨"state", none, [], [("x", "id")], none⟩,
      .absent (.pattern
        ⟨"event", none, [.compare "name" .equal (.var "x")], [], some (.length 1)⟩),
      .pattern ⟨"event", none, [], [], none⟩],
    fun _ => .done⟩]
  queries := []

namespace Session

/-- State 1 comes, then an event that names it, then one that does not. -/
def unnamedRun (base : RuleBase) : Session :=
  (((start base { Settings.standard with clock := .manual } 0).change
    (.insert ⟨"state", [("id", .integer 1)]⟩)).change
    (.insert ⟨"event", [("name", .integer 1)]⟩)).change
    (.insert ⟨"event", [("name", .integer 2)]⟩)

theorem reached_unnamedRun (base : RuleBase) :
    Reached base { Settings.standard with clock := .manual } (unnamedRun base) :=
  (((Reached.start 0).change _).change _).change _

/-- When the second event comes, the first one leaves the window and all pairs are made. -/
theorem inStep_of_reached_unnamedRun : ∃ base, Declarations.unnamed.build = .ok base ∧
    Reached base { Settings.standard with clock := .manual } (unnamedRun base) ∧
    (unnamedRun base).agenda.pending.length = 3 ∧ (unnamedRun base).InStep := by
  obtain ⟨base, hb, hlength⟩ := Declarations.build_of_passes .unnamed
    (fun base => decide ((unnamedRun base).agenda.pending.length = 3)) (by decide +kernel)
  have hs := reached_unnamedRun base
  exact ⟨base, hb, hs, of_decide_eq_true hlength, (inStep_of_reached hb hs).1⟩

end Session

end RuleNet
