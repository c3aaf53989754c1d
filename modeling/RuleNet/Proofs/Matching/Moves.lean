/-
  What a step of propagation makes, and what it leaves alone.

  A step starts at some nodes for some left tokens. From there it may change the tokens below and
  what nodes hold for them; everything else stays.

  * `Evolves`: new tokens stand where the step started or below new tokens; old ones stay as they
    were or go.
  * `Moves`: moreover all tokens and records stay that are not below the start.
-/
import RuleNet.Proofs.Matching.Match
import RuleNet.Proofs.Matching.Sound

namespace RuleNet

/-- Nodes with left tokens. -/
abbrev Spots := NodeId → TokenId → Prop

namespace Network

/-- Whether a node is below one of the spots. -/
def Low (net : Network) (Q : Spots) (c : NodeId) : Prop := ∃ n left, Q n left ∧ net.Beneath n c

/-- Whether a node and a left token are one of the spots, or the node is below one. -/
def Touches (net : Network) (Q : Spots) (n : NodeId) (left : TokenId) : Prop :=
  Q n left ∨ net.Low Q n

theorem Low.beneath {net : Network} {Q : Spots} {n c : NodeId} (h : net.Low Q n)
    (hb : net.Beneath n c) : net.Low Q c := by
  obtain ⟨a, left, hq, ha⟩ := h
  exact ⟨a, left, hq, ha.trans_within hb.within⟩

theorem Touches.beneath {net : Network} {Q : Spots} {n c : NodeId} {left : TokenId}
    (h : net.Touches Q n left) (hb : net.Beneath n c) : net.Low Q c := by
  rcases h with h | h
  · exact ⟨n, left, h, hb⟩
  · exact h.beneath hb

theorem Low.mono {net : Network} {Q R : Spots} (h : ∀ {n left}, Q n left → net.Touches R n left)
    {c : NodeId} (hl : net.Low Q c) : net.Low R c := by
  obtain ⟨n, left, hq, hb⟩ := hl
  exact (h hq).beneath hb

theorem Touches.mono {net : Network} {Q R : Spots}
    (h : ∀ {n left}, Q n left → net.Touches R n left) {n : NodeId} {left : TokenId}
    (ht : net.Touches Q n left) : net.Touches R n left := by
  rcases ht with hq | hl
  · exact h hq
  · exact Or.inr (hl.mono h)

/-- Spots of one node touch no other spot of it. -/
theorem WellFormed.not_touches {net : Network} (W : net.WellFormed) {Q : Spots} {n : NodeId}
    (hQ : ∀ {n' left}, Q n' left → n' = n) {left : TokenId} (h : ¬ Q n left) :
    ¬ net.Touches Q n left := by
  rintro (hq | ⟨n', left', hq, hb⟩)
  · exact h hq
  · exact W.not_beneath_self n (hQ hq ▸ hb)

end Network

/-! ## Tokens -/

/-- The match of a token that stays is the same. -/
theorem Matching.Forest.matchOf_survive {net : Network} {m m' : Matching} (F : m.Forest net)
    (F' : m'.Forest net)
    (h : ∀ {t o}, t < m.nextToken → m'.origin? t = some o → m.origin? t = some o) {t : TokenId}
    {o : Origin} (ho : m'.origin? t = some o) (hlt : t < m.nextToken) :
    m'.matchOf t = m.matchOf t := by
  refine F'.induction (P := fun t _ => t < m.nextToken → m'.matchOf t = m.matchOf t) ?_ ?_ t o ho hlt
  · intro _
    rw [matchOf_root F, matchOf_root F']
  · intro t p n node o above ho hp hn hnode hpt habove heq hdepth ih hlt
    have hplt := Nat.lt_trans hpt hlt
    rw [matchOf_made ho hp hpt habove, ih hplt, matchOf_made (h hlt ho) hp hpt (h hplt habove)]

namespace Matching

/-- The chain of a token that stays is the same. -/
theorem Forest.chain_survive {net : Network} {m m' : Matching} (F' : m'.Forest net)
    (h : ∀ {t o}, t < m.nextToken → m'.origin? t = some o → m.origin? t = some o) {t : TokenId}
    {o : Origin} (ho : m'.origin? t = some o) (hlt : t < m.nextToken) :
    (m.chain t).map Token.origin = (m'.chain t).map Token.origin := by
  refine F'.induction (P := fun t _ => t < m.nextToken →
    (m.chain t).map Token.origin = (m'.chain t).map Token.origin) ?_ ?_ t o ho hlt
  · intro hlt
    obtain ⟨token, hchain, horigin⟩ := chain_root F'
    obtain ⟨token', htoken', horigin'⟩ := origin?_eq_some.1 (h hlt F'.root)
    have hparent : token'.parent = none := congrArg Origin.parent horigin'
    have hchain' : m.chain rootToken = [token'] := by
      rw [chain, htoken']
      simp only [hparent]
    rw [hchain, hchain', List.map_singleton, List.map_singleton, horigin, horigin']
  · intro t p n node o above ho hp hn hnode hpt habove heq hdepth ih hlt
    obtain ⟨token, hchain, horigin⟩ := chain_made (h hlt ho) hp hpt
    obtain ⟨token', hchain', horigin'⟩ := chain_made ho hp hpt
    rw [hchain, hchain', List.map_cons, List.map_cons, horigin, horigin', ih (Nat.lt_trans hpt hlt)]

section
variable {m m' : Matching} {t : TokenId}
  (h : (m.chain t).map Token.origin = (m'.chain t).map Token.origin)
include h

/-- What the token at a depth carries depends on how the tokens of the chain came to be. -/
theorem atDepth?_congr {α : Type} (f : Extension → Option α) (depth : Nat) :
    (m.atDepth? t depth).bind (f ∘ Token.step) = (m'.atDepth? t depth).bind (f ∘ Token.step) := by
  have hfind : ∀ tokens : List Token,
      ((tokens.find? fun token => token.depth ≤ depth).filter
        fun token => token.depth == depth).map Token.origin =
      ((tokens.map Token.origin).find? fun o => o.depth ≤ depth).filter
        fun o => o.depth == depth := fun tokens => by
    rw [List.find?_map]
    show _ = ((tokens.find? fun token => token.depth ≤ depth).map Token.origin).filter _
    cases tokens.find? fun token => token.depth ≤ depth with
    | none => rfl
    | some token => simp only [Option.filter_some, Option.map_some, Token.origin]; split <;> rfl
  have horigin : (m.atDepth? t depth).map Token.origin = (m'.atDepth? t depth).map Token.origin := by
    rw [atDepth?, atDepth?, hfind, hfind, h]
  have hstep := congrArg (Option.map Origin.step) horigin
  rw [Option.map_map, Option.map_map] at hstep
  rw [← Option.bind_map, ← Option.bind_map]
  exact congrArg (Option.bind · f) hstep

theorem handleAt?_congr : m.handleAt? t = m'.handleAt? t :=
  funext fun depth => atDepth?_congr h Extension.handle depth

/-- What places hold on a chain depends on how its tokens came to be. -/
theorem view_congr (store : WorkingMemory) : m.view store t = m'.view store t := by
  have hvalue : ∀ depth, (m.atDepth? t depth).bind Token.value =
      (m'.atDepth? t depth).bind Token.value := atDepth?_congr h Extension.value
  simp only [view, handleAt?_congr h, hvalue]

/-- So does what its match binds. -/
theorem binding_congr (store : WorkingMemory) (scope : List (String × Place)) :
    m.binding store scope t = m'.binding store scope t := by
  have hhandles : m.chainHandles t = m'.chainHandles t := by
    have heq := congrArg (fun origins => (origins.filterMap fun o => o.step.handle).reverse) h
    rw [List.filterMap_map, List.filterMap_map] at heq
    rw [chainHandles, chainHandles]
    exact heq
  simp only [binding, view_congr h, handleAt?_congr h, hhandles]

/-- Matches whose tokens came to be alike carry the same. -/
theorem matchOf_eq_of_chain : m.matchOf t = m'.matchOf t := by
  have heq := congrArg (fun origins => (origins.reverse.drop 1).map Origin.step) h
  rw [← List.map_reverse, ← List.map_reverse, ← List.map_drop, ← List.map_drop, List.map_map,
    List.map_map] at heq
  exact heq

end

end Matching

/-- New tokens stand at the spots or below new tokens; old ones stay as they were or go. -/
structure Evolves (net : Network) (B : Spots) (m m' : Matching) : Prop where
  next : m.nextToken ≤ m'.nextToken
  survive : ∀ {t o}, t < m.nextToken → m'.origin? t = some o → m.origin? t = some o
  born : ∀ {n left t e}, m.nextToken ≤ t → m'.Made n left t e →
    B n left ∨ (m.nextToken ≤ left ∧ net.Low B n)

namespace Evolves

variable {net : Network} {B C : Spots} {m m' m'' : Matching}

theorem refl (F : m.Forest net) : Evolves net B m m where
  next := Nat.le_refl _
  survive _ h := h
  born hlt hmade := by
    obtain ⟨depth, ho⟩ := hmade
    exact absurd (F.lt_next ho) (Nat.not_lt.2 hlt)

theorem trans (h : Evolves net B m m') (h' : Evolves net B m' m'') : Evolves net B m m'' where
  next := Nat.le_trans h.next h'.next
  survive hlt ho := h.survive hlt (h'.survive (Nat.lt_of_lt_of_le hlt h.next) ho)
  born {n left t e} hlt hmade := by
    by_cases hold : t < m'.nextToken
    · obtain ⟨depth, ho⟩ := hmade
      exact h.born hlt ⟨depth, h'.survive hold ho⟩
    · exact (h'.born (Nat.not_lt.1 hold) hmade).imp_right fun hb =>
        ⟨Nat.le_trans h.next hb.1, hb.2⟩

theorem mono (h : Evolves net B m m')
    (hBC : ∀ {n left}, B n left → C n left ∨ (m.nextToken ≤ left ∧ net.Low C n)) :
    Evolves net C m m' where
  next := h.next
  survive := h.survive
  born {n left t e} hlt hmade := by
    rcases h.born hlt hmade with hb | ⟨hnew, hlow⟩
    · exact hBC hb
    · exact Or.inr ⟨hnew, hlow.mono fun hb => (hBC hb).imp_right And.right⟩

/-- The match of a token that stays is the same. -/
theorem matchOf (h : Evolves net B m m') (F : m.Forest net) (F' : m'.Forest net) {t : TokenId}
    {o : Origin} (ho : m'.origin? t = some o) (hlt : t < m.nextToken) :
    m'.matchOf t = m.matchOf t :=
  F.matchOf_survive F' h.survive ho hlt

end Evolves

/-! ## Tokens and records -/

/-- All tokens and records stay that are not below the spots. -/
structure Moves (net : Network) (Q B : Spots) (m m' : Matching) : Prop extends
    Evolves net B m m' where
  kept : ∀ {t o}, m.origin? t = some o →
    (∀ n left, o.node = some n → o.parent = some left → ¬ net.Touches Q n left) →
    m'.origin? t = some o
  record : ∀ {n left}, ¬ net.Touches Q n left → left < m.nextToken → m'.about n left = m.about n left
  alphas : m'.alphas = m.alphas
  memoriesOf : m'.memoriesOf = m.memoriesOf
  deferring : m'.deferred.isSome = m.deferred.isSome
  sources : ∀ {n left}, B n left → Q n left

namespace Moves

variable {net : Network} {Q R B C : Spots} {m m' m'' : Matching}

theorem refl (F : m.Forest net) (hBQ : ∀ {n left}, B n left → Q n left) : Moves net Q B m m where
  toEvolves := .refl F
  kept ho _ := ho
  record _ _ := rfl
  alphas := rfl
  memoriesOf := rfl
  deferring := rfl
  sources := hBQ

theorem trans (h : Moves net Q B m m') (h' : Moves net Q B m' m'') : Moves net Q B m m'' where
  toEvolves := h.toEvolves.trans h'.toEvolves
  kept ho hq := h'.kept (h.kept ho hq) hq
  record hq hlt := (h'.record hq (Nat.lt_of_lt_of_le hlt h.next)).trans (h.record hq hlt)
  alphas := h'.alphas.trans h.alphas
  memoriesOf := h'.memoriesOf.trans h.memoriesOf
  deferring := h'.deferring.trans h.deferring
  sources := h.sources

theorem mono (h : Moves net Q B m m') (hQR : ∀ {n left}, Q n left → net.Touches R n left)
    (hBC : ∀ {n left}, B n left → C n left ∨ (m.nextToken ≤ left ∧ net.Low C n))
    (hCR : ∀ {n left}, C n left → R n left) : Moves net R C m m' where
  toEvolves := h.toEvolves.mono hBC
  kept ho hr := h.kept ho fun n left hn hp hq => hr n left hn hp (hq.mono hQR)
  record hr hlt := h.record (fun hq => hr (hq.mono hQR)) hlt
  alphas := h.alphas
  memoriesOf := h.memoriesOf
  deferring := h.deferring
  sources := hCR

theorem members (h : Moves net Q B m m') : m'.members = m.members := by
  funext a
  rw [Matching.members, Matching.members, Matching.alpha, Matching.alpha, h.alphas]

/-- What a node made for an old left token stays the same. -/
theorem made_iff (h : Moves net Q B m m') {n : NodeId} {left t : TokenId} {e : Matching.Extension}
    (hq : ¬ net.Touches Q n left) (hlt : left < m.nextToken) :
    m'.Made n left t e ↔ m.Made n left t e := by
  constructor
  · intro hmade
    by_cases ht : t < m.nextToken
    · obtain ⟨depth, ho⟩ := hmade
      exact ⟨depth, h.survive ht ho⟩
    · rcases h.born (Nat.not_lt.1 ht) hmade with hb | ⟨hnew, -⟩
      · exact absurd (Or.inl (h.sources hb)) hq
      · exact absurd hlt (Nat.not_lt.2 hnew)
  · rintro ⟨depth, ho⟩
    refine ⟨depth, h.kept ho fun n' left' hn hp => ?_⟩
    cases hn
    cases hp
    exact hq

/-- Left tokens of a node stay if the step starts at that node only, with their matches. -/
theorem keeps_left (W : net.WellFormed) (F : m.Forest net) (F' : m'.Forest net)
    (h : Moves net Q B m m') {n : NodeId} (hQ : ∀ {n' left}, Q n' left → n' = n) {left : TokenId}
    {node : BetaNode} (hnode : net.node? n = some node) (hl : m.LiveAt left node.parent) :
    m'.LiveAt left node.parent ∧ m'.matchOf left = m.matchOf left := by
  obtain ⟨o, ho, hon⟩ := hl
  have hkept : m'.origin? left = some o := by
    refine h.kept ho fun p l hp _ htouch => ?_
    have hpar : node.parent = some p := hon.symm.trans hp
    rcases htouch with hq | ⟨n', l', hq, hb⟩
    · obtain rfl := hQ hq
      exact Nat.lt_irrefl _ (W.parent hnode hpar).1
    · obtain rfl := hQ hq
      exact Nat.lt_irrefl _ (Nat.lt_trans (W.lt_of_beneath hb) (W.parent hnode hpar).1)
  exact ⟨⟨o, hkept, hon⟩, h.toEvolves.matchOf F F' hkept (F.lt_next ho)⟩

/-- A step that starts at one node makes no left tokens of it. -/
theorem left_of (W : net.WellFormed) (F : m.Forest net) (F' : m'.Forest net)
    (h : Moves net Q B m m') {n : NodeId} (hQ : ∀ {n' left}, Q n' left → n' = n) {left : TokenId}
    {node : BetaNode} (hnode : net.node? n = some node) (hl : m'.LiveAt left node.parent) :
    m.LiveAt left node.parent := by
  obtain ⟨o, ho, hon⟩ := hl
  by_cases hlt : left < m.nextToken
  · exact ⟨o, h.survive hlt ho, hon⟩
  · have hroot : left ≠ rootToken := by
      rintro rfl
      exact hlt (F.lt_next F.root)
    obtain ⟨p, k, knode, above, hp, hk, -⟩ := F'.made ho hroot
    have hparent : node.parent = some k := hon.symm.trans hk
    have hbelow : ∀ {a l}, Q a l → net.Within a k → False := fun hq hw =>
      absurd (W.le_of_within hw) (Nat.not_le.2 (by rw [hQ hq]; exact (W.parent hnode hparent).1))
    rcases h.born (Nat.not_lt.1 hlt) (Matching.made_of_origin ho hk hp) with hb | ⟨-, a, l, hb, hw⟩
    · exact (hbelow (h.sources hb) .self).elim
    · exact (hbelow (h.sources hb) hw.within).elim

end Moves

end RuleNet
