/-
  Each match is held by one token.

  A fact that feeds two steps of one branch is paired with itself once, since it reaches the deeper
  step first. It is not so where the fact takes the place of another one in a length window: what
  leaves the window may make matches before the deeper step has been reached.

  * `Session.Steady.made_unique`: a node makes one token for a left token and a fact, unless it is
    a join that is exposed to a length window above it.
  * `Session.unique_of_reached`: hence each match of a branch has one token and at most one
    activation, if the branch has no exposed join.
  * `Session.unnamedRun_twice`: an exposed join makes the same match twice.
-/
import RuleNet.Proofs.Session.Pending

namespace RuleNet

open Matching (Extension)

theorem Passes.unique {made : TokenId → Extension → Prop} {output : Option TokenId}
    {ext : Option Extension} (h : Passes made output ext) {t t' : TokenId} {e e' : Extension}
    (ht : made t e) (ht' : made t' e') : t = t' := by
  cases ext with
  | none => exact absurd ht (h.2 t e)
  | some ext =>
    obtain ⟨out, -, hall⟩ := h
    exact ((hall t e).1 ht).1.trans ((hall t' e').1 ht').1.symm

namespace Session

variable {s : Session}

/-- A node makes one token for a left token and a fact, unless it is an exposed join. -/
theorem Steady.made_unique (h : s.Steady) {n : NodeId} {left t t' : TokenId} {e e' : Extension}
    (hexposed : ¬ s.network.Exposed n) (ht : s.matching.Made n left t e)
    (ht' : s.matching.Made n left t' e') (hh : e.handle = e'.handle) : t = t' := by
  have F := h.kept.sound.forest
  obtain ⟨-, node, hn, hl⟩ := ht.leftOf F
  have hs := h.kept.sound.settled hn hl fun hbusy => hbusy
  have hc := h.kept.sound.carries ht (Network.kind?_eq hn)
  have hc' := h.kept.sound.carries ht' (Network.kind?_eq hn)
  cases hkind : node.kind with
  | join feed =>
    rw [hkind] at hs hc hc'
    obtain ⟨i, rfl⟩ := hc
    obtain ⟨j, rfl⟩ := hc'
    obtain rfl : i = j := Option.some.inj hh
    exact (hs.2.2 t t' i ht ht').resolve_right hexposed
  | absent feed =>
    rw [hkind] at hs
    obtain ⟨facts, output, -, -, hp⟩ := hs
    exact hp.unique ht ht'
  | present feed =>
    rw [hkind] at hs
    obtain ⟨facts, output, -, -, hp⟩ := hs
    exact hp.unique ht ht'
  | accumulate feed fold having =>
    rw [hkind] at hs
    obtain ⟨acc, output, marked, result, -, -, -, hp, -⟩ := hs
    exact hp.unique ht ht'
  | predicate p scope =>
    rw [hkind] at hs
    obtain ⟨output, -, hp⟩ := hs
    exact hp.unique ht ht'

/-- A match has one token at a node that neither is an exposed join nor stands below one. -/
theorem Steady.matchOf_unique (h : s.Steady) {t t' : TokenId} {o o' : Origin}
    (ho : s.matching.origin? t = some o) (ho' : s.matching.origin? t' = some o')
    (hnode : o.node = o'.node)
    (hexposed : ∀ n, o.node = some n → ∀ k, s.network.Within k n → ¬ s.network.Exposed k)
    (hmatch : s.matching.matchOf t = s.matching.matchOf t') : t = t' := by
  have F := h.kept.sound.forest
  refine F.induction (P := fun t o =>
    (∀ n, o.node = some n → ∀ k, s.network.Within k n → ¬ s.network.Exposed k) →
    ∀ t' o', s.matching.origin? t' = some o' → o.node = o'.node →
      s.matching.matchOf t = s.matching.matchOf t' → t = t') ?_ ?_ t o ho hexposed t' o' ho' hnode hmatch
  · intro _ t' o' ho' hnode _
    exact (F.eq_root ⟨o', ho', hnode.symm⟩).symm
  · intro t p n node o above ho hp hn hnode hlt habove hparent _ ih hexposed t' o' ho' heq hmatch
    -- the other token was made by the same node, for a left token of the same match
    have hn' : o'.node = some n := heq ▸ hn
    obtain ⟨p', n', node', above', hp', hn'', hnode', hlt', habove', hparent', -⟩ :=
      F.made ho' (F.ne_root ho' hn')
    obtain rfl := Option.some.inj (hn'.symm.trans hn'')
    obtain rfl := Option.some.inj (hnode.symm.trans hnode')
    rw [Matching.matchOf_made ho hp hlt habove, Matching.matchOf_made ho' hp' hlt' habove'] at hmatch
    obtain ⟨hleft, hstep⟩ := List.append_inj' hmatch rfl
    have hpp : p = p' := ih (fun q hq k hk => hexposed n hn k
      (hk.step hnode (hparent ▸ hq))) p' above' habove' (hparent.trans hparent'.symm) hleft
    subst hpp
    refine h.made_unique (hexposed n hn n .self) (Matching.made_of_origin ho hn hp)
      (Matching.made_of_origin ho' hn' hp') ?_
    exact congrArg Extension.handle (List.singleton_inj.1 hstep)

/-- Whether a branch is free of joins that may be told of a fact before their turn. -/
def Sheltered (net : Network) (terminal : Terminal) : Prop :=
  ∀ n, terminal.node = some n → ∀ k, net.Within k n → ¬ net.Exposed k

/-- Where no node makes tokens when facts go, every branch is sheltered. -/
theorem sheltered_of_kinds {net : Network}
    (h : (net.nodes.all fun node => !node.kind.reopens) = true) (terminal : Terminal) :
    Sheltered net terminal := by
  rintro n - k - ⟨feed, -, w, kind, a, alpha, capacity, -, hk, hreopens, -⟩
  obtain ⟨node, hn, rfl⟩ := Network.kind?_eq_some.1 hk
  have hno := Array.all_eq_true_iff_forall_mem.1 h node (Array.mem_of_getElem? hn)
  rw [hreopens] at hno
  cases hno

/-- A node makes one token for a left token and a fact, unless it is exposed. So each combination
    of facts and results at the end of a branch that is free of exposed joins has one token, and at
    most one waiting activation. -/
theorem unique_of_reached {declarations : Declarations} {base : RuleBase} {settings : Settings}
    (hb : declarations.build = .ok base) (hs : Reached base settings s) :
    (∀ n left t t' e e', ¬ base.network.Exposed n → s.matching.Made n left t e →
      s.matching.Made n left t' e' → e.handle = e'.handle → t = t') ∧
    ∀ terminal, Sheltered base.network terminal →
      (∀ t t', s.matching.LiveAt t terminal.node → s.matching.LiveAt t' terminal.node →
        s.matching.matchOf t = s.matching.matchOf t' → t = t') ∧
      ∀ a ∈ s.agenda.pending, ∀ b ∈ s.agenda.pending,
        base.network.terminal? a.terminal = some terminal → a.terminal = b.terminal →
        s.matching.matchOf a.token = s.matching.matchOf b.token → a = b := by
  obtain ⟨h, hbase, -⟩ := hs.steady (Declarations.wellFormed_build hb)
  have hnet : s.network = base.network := by rw [network, hbase]
  have htoken : ∀ terminal, Sheltered base.network terminal → ∀ t t',
      s.matching.LiveAt t terminal.node → s.matching.LiveAt t' terminal.node →
      s.matching.matchOf t = s.matching.matchOf t' → t = t' := by
    rintro terminal hshelter t t' ⟨o, ho, hn⟩ ⟨o', ho', hn'⟩ hmatch
    exact h.matchOf_unique ho ho' (hn.trans hn'.symm)
      (fun n hn'' => hnet ▸ hshelter n (hn ▸ hn'')) hmatch
  refine ⟨fun n left t t' e e' hexposed => h.made_unique (hnet ▸ hexposed),
    fun terminal hshelter => ⟨htoken terminal hshelter, ?_⟩⟩
  intro a ha b hb hterminal hab hmatch
  obtain ⟨id, hid⟩ := h.agenda.mem_pending.1 ha
  obtain ⟨id', hid'⟩ := h.agenda.mem_pending.1 hb
  obtain ⟨τ, rule, hf, hlive, -⟩ := h.current hid
  obtain ⟨τ', rule', hf', hlive', -⟩ := h.current hid'
  have hτ : τ = terminal := Option.some.inj (hf.ends.symm.trans (hnet ▸ hterminal))
  have hτ' : τ' = terminal := Option.some.inj (hf'.ends.symm.trans (hab ▸ hnet ▸ hterminal))
  exact h.agenda.unique ha hb hab
    (htoken terminal hshelter _ _ (hτ ▸ hlive) (hτ' ▸ hlive') hmatch)

/-- Each of the latest two events is matched with each of them. -/
def couples : Declarations where
  types := [⟨"event", [("name", .integer)], .event, none, none⟩]
  rules := [⟨"couple", 0, mainGroup, false, false, false,
    .all [.pattern ⟨"event", none, [], [], some (.length 2)⟩,
      .pattern ⟨"event", none, [], [], some (.length 2)⟩],
    fun _ => .done⟩]
  queries := []

/-- Three events, so one leaves the window. -/
def couplesRun (base : RuleBase) : Session :=
  (((start base { Settings.standard with clock := .manual } 0).change
    (.insert ⟨"event", [("name", .integer 1)]⟩)).change
    (.insert ⟨"event", [("name", .integer 2)]⟩)).change
    (.insert ⟨"event", [("name", .integer 3)]⟩)

/-- The two events in the window make four couples, each once. -/
theorem unique_of_reached_couplesRun : ∃ base, couples.build = .ok base ∧
    Reached base { Settings.standard with clock := .manual } (couplesRun base) ∧
    (couplesRun base).agenda.pending.length = 4 ∧
    ∀ a ∈ (couplesRun base).agenda.pending, ∀ b ∈ (couplesRun base).agenda.pending,
      (couplesRun base).matching.matchOf a.token = (couplesRun base).matching.matchOf b.token →
      a = b := by
  obtain ⟨base, hb, hrun⟩ := Declarations.build_of_passes couples
    (fun base => (base.network.nodes.all fun node => !node.kind.reopens) &&
      decide ((couplesRun base).agenda.pending.length = 4) &&
      (base.network.terminal? 0).isSome &&
      (couplesRun base).agenda.pending.all fun a => a.terminal == 0) (by decide +kernel)
  simp only [Bool.and_eq_true, decide_eq_true_eq, List.all_eq_true, beq_iff_eq] at hrun
  obtain ⟨⟨⟨hkinds, hlength⟩, hterminal⟩, hall⟩ := hrun
  obtain ⟨terminal, hτ⟩ := Option.isSome_iff_exists.1 hterminal
  have hs : Reached base { Settings.standard with clock := .manual } (couplesRun base) :=
    (((Reached.start 0).change _).change _).change _
  refine ⟨base, hb, hs, hlength, fun a ha b hb' hmatch => ?_⟩
  exact ((unique_of_reached hb hs).2 terminal (sheltered_of_kinds hkinds terminal)).2 a ha b hb'
    ((hall a ha).symm ▸ hτ) ((hall a ha).trans (hall b hb').symm) hmatch

/-- The second event is paired with the state twice: once when the first event leaves the window and
    the match comes to the join, and once when the join is told of the event. -/
theorem unnamedRun_twice : ∃ base, Declarations.unnamed.build = .ok base ∧
    Reached base { Settings.standard with clock := .manual } (unnamedRun base) ∧
    (∃ n left t t' h, t ≠ t' ∧ (unnamedRun base).matching.Made n left t (.fact h) ∧
      (unnamedRun base).matching.Made n left t' (.fact h)) ∧
    ∃ a ∈ (unnamedRun base).agenda.pending, ∃ b ∈ (unnamedRun base).agenda.pending,
      a ≠ b ∧ a.terminal = b.terminal ∧ a.binding = b.binding := by
  obtain ⟨base, hb, hrun⟩ := Declarations.build_of_passes .unnamed
    (fun base =>
      decide ((unnamedRun base).matching.origin? 6 = some ⟨some 4, some 2, 3, .fact 3⟩) &&
      decide ((unnamedRun base).matching.origin? 7 = some ⟨some 4, some 2, 3, .fact 3⟩) &&
      decide (∃ a ∈ (unnamedRun base).agenda.pending, ∃ b ∈ (unnamedRun base).agenda.pending,
        a ≠ b ∧ a.terminal = b.terminal ∧ a.binding = b.binding)) (by decide +kernel)
  simp only [Bool.and_eq_true, decide_eq_true_eq] at hrun
  obtain ⟨⟨hfirst, hsecond⟩, htwice⟩ := hrun
  exact ⟨base, hb, reached_unnamedRun base, ⟨2, 4, 6, 7, 3, by decide, ⟨3, hfirst⟩, ⟨3, hsecond⟩⟩,
    htwice⟩

end Session

end RuleNet
