/-
  How one token is made.

  * `Matching.addToken_eq`: making a token is noting it at its node and letting it sprout.
  * `Sound.passOn`, `Sound.sprout`: after it the nodes below have yet to see to the new token.
-/
import RuleNet.Proofs.Matching.Writes

namespace RuleNet

open Matching (Extension)

/-! ## One token more -/

namespace Matching

/-- Make a token of a node under a parent, as far as the token itself is concerned. -/
def sprout (m : Matching) (net : Network) (n : NodeId) (parent : TokenId) (ext : Extension) :
    Matching :=
  let t := m.nextToken
  { m with
    tokens := (m.tokens.insert t
      ⟨some parent, some n, net.depthOf n, ext.handle, ext.value, []⟩).modify parent
        fun token => { token with children := token.children ++ [t] }
    nextToken := t + 1
    tokensByFact := match ext.handle with
      | some h => m.tokensByFact.file h t
      | none => m.tokensByFact
    events := m.events.appendList ((net.terminalsOf n).map fun terminal => .formed terminal t) }

/-- Note at a node that the next token is passed on for a left token. -/
def passOn (m : Matching) (net : Network) (n : NodeId) (parent : TokenId) : Matching :=
  if (net.kind? n).any NodeKind.isJoin then m
  else m.setNode n { m.node n with outputs := (m.node n).outputs.insert parent m.nextToken }

theorem addToken_eq (m : Matching) (net : Network) (n : NodeId) (parent : TokenId)
    (ext : Extension) :
    m.addToken net n parent ext = (m.passOn net n parent).sprout net n parent ext := by
  by_cases h : (net.kind? n).any NodeKind.isJoin = true
  · simp only [addToken, passOn, if_pos h]
    rfl
  · simp only [addToken, passOn, if_neg h]
    rfl

section
variable {net : Network} {m : Matching} {n : NodeId} {parent : TokenId} {ext : Extension}

theorem origin?_sprout (hp : parent < m.nextToken) (t : TokenId) :
    (m.sprout net n parent ext).origin? t =
      if t = m.nextToken then some ⟨some parent, some n, net.depthOf n, ext⟩ else m.origin? t := by
  have hne : ¬ m.nextToken = parent := fun e => Nat.lt_irrefl _ (e ▸ hp)
  simp only [origin?, sprout, Std.ExtTreeMap.getElem?_modify, Std.ExtTreeMap.getElem?_insert,
    Nat.compare_eq_eq, hne, if_false]
  by_cases h : parent = t
  · subst h
    have hne' : ¬ parent = m.nextToken := fun e => hne e.symm
    rw [if_pos rfl, if_neg hne', Option.map_map]
    rfl
  · rw [if_neg h]
    by_cases ht : m.nextToken = t
    · subst ht
      rw [if_pos rfl, if_pos rfl]
      rfl
    · have ht' : ¬ t = m.nextToken := fun e => ht e.symm
      rw [if_neg ht, if_neg ht']

variable (F : m.Forest net)
include F

theorem origin?_fresh : m.origin? m.nextToken = none :=
  Option.eq_none_iff_forall_ne_some.2 fun _ ho => Nat.lt_irrefl _ (F.lt_next ho)

/-- Tokens of before stay as they were. -/
theorem origin?_sprout_of_live (hp : parent < m.nextToken) {t : TokenId} {o : Origin}
    (ho : m.origin? t = some o) : (m.sprout net n parent ext).origin? t = some o := by
  rw [origin?_sprout hp, if_neg fun e => Nat.lt_irrefl _ (e ▸ F.lt_next ho)]
  exact ho

theorem made_sprout (hp : parent < m.nextToken) {n' : NodeId} {left t : TokenId} {e : Extension} :
    (m.sprout net n parent ext).Made n' left t e ↔
      m.Made n' left t e ∨ (n' = n ∧ left = parent ∧ t = m.nextToken ∧ e = ext) := by
  constructor
  · rintro ⟨depth, ho⟩
    rw [origin?_sprout hp] at ho
    split at ho
    · next heq =>
      cases ho
      exact Or.inr ⟨rfl, rfl, heq, rfl⟩
    · exact Or.inl ⟨depth, ho⟩
  · rintro (⟨depth, ho⟩ | ⟨rfl, rfl, rfl, rfl⟩)
    · exact ⟨depth, origin?_sprout_of_live F hp ho⟩
    · exact ⟨net.depthOf n', by rw [origin?_sprout hp, if_pos rfl]⟩

theorem liveAt_sprout (hp : parent < m.nextToken) {t : TokenId} {node : Option NodeId} :
    (m.sprout net n parent ext).LiveAt t node ↔
      m.LiveAt t node ∨ (t = m.nextToken ∧ node = some n) := by
  constructor
  · rintro ⟨o, ho, hn⟩
    rw [origin?_sprout hp] at ho
    split at ho
    · next heq =>
      cases ho
      exact Or.inr ⟨heq, hn.symm⟩
    · exact Or.inl ⟨o, ho, hn⟩
  · rintro (⟨o, ho, hn⟩ | ⟨rfl, rfl⟩)
    · exact ⟨o, origin?_sprout_of_live F hp ho, hn⟩
    · exact ⟨_, by rw [origin?_sprout hp, if_pos rfl], rfl⟩

theorem children_sprout (hp : parent < m.nextToken) {p c : TokenId} :
    (∃ token, (m.sprout net n parent ext).tokens[p]? = some token ∧ c ∈ token.children) ↔
      (∃ token, m.tokens[p]? = some token ∧ c ∈ token.children) ∨
      (p = parent ∧ c = m.nextToken ∧ ∃ o, m.origin? parent = some o) := by
  have hne : ¬ m.nextToken = parent := fun e => Nat.lt_irrefl _ (e ▸ hp)
  have hfresh : m.tokens[m.nextToken]? = none := by
    have h := origin?_fresh F
    rw [origin?, Option.map_eq_none_iff] at h
    exact h
  simp only [sprout, Std.ExtTreeMap.getElem?_modify, Std.ExtTreeMap.getElem?_insert,
    Nat.compare_eq_eq, hne, if_false]
  by_cases h : parent = p
  · subst h
    rw [if_pos rfl]
    simp only [Option.map_eq_some_iff, origin?]
    constructor
    · rintro ⟨-, ⟨token, htoken, rfl⟩, hc⟩
      rcases List.mem_append.1 hc with hc | hc
      · exact Or.inl ⟨token, htoken, hc⟩
      · exact Or.inr ⟨trivial, List.mem_singleton.1 hc, _, token, htoken, rfl⟩
    · rintro (⟨token, htoken, hc⟩ | ⟨-, rfl, -, token, htoken, -⟩)
      · exact ⟨_, ⟨token, htoken, rfl⟩, List.mem_append_left _ hc⟩
      · exact ⟨_, ⟨token, htoken, rfl⟩, List.mem_append_right _ (List.mem_singleton_self _)⟩
  · have h' : ¬ p = parent := fun e => h e.symm
    rw [if_neg h]
    by_cases hp' : m.nextToken = p
    · subst hp'
      simp [hfresh, h']
    · simp [hp', h']

theorem Forest.sprout {node : BetaNode} (hn : net.node? n = some node)
    (hl : m.LiveAt parent node.parent) : (m.sprout net n parent ext).Forest net := by
  obtain ⟨above, habove, hnode⟩ := hl
  have hp := F.lt_next habove
  have hold : ∀ {t o}, m.origin? t = some o →
      (m.sprout net n parent ext).origin? t = some o := origin?_sprout_of_live F hp
  constructor
  case root => exact hold F.root
  case lt_next =>
    intro t o ho
    rw [origin?_sprout hp] at ho
    split at ho
    · next heq => exact heq ▸ Nat.lt_succ_self _
    · exact Nat.lt_succ_of_lt (F.lt_next ho)
  case made =>
    intro t o ho hroot
    rw [origin?_sprout hp] at ho
    split at ho
    · next heq =>
      cases ho
      exact ⟨parent, n, node, above, rfl, rfl, hn, heq ▸ hp, hold habove, hnode,
        Network.depthOf_eq hn⟩
    · obtain ⟨p, n', node', above', hpar, hn', hnode', hlt, habove', heq, hdepth⟩ := F.made ho hroot
      exact ⟨p, n', node', above', hpar, hn', hnode', hlt, hold habove', heq, hdepth⟩
  case children =>
    intro p c
    rw [children_sprout F hp, F.children]
    constructor
    · rintro (⟨o, ho, hpar⟩ | ⟨rfl, rfl, -⟩)
      · exact ⟨o, hold ho, hpar⟩
      · exact ⟨_, by rw [origin?_sprout hp, if_pos rfl], rfl⟩
    · rintro ⟨o, ho, hpar⟩
      rw [origin?_sprout hp] at ho
      split at ho
      · next heq =>
        cases ho
        exact Or.inr ⟨(Option.some.inj hpar).symm, heq, above, habove⟩
      · exact Or.inl ⟨o, ho, hpar⟩
  case nodup =>
    intro p token htoken
    have hne : ¬ m.nextToken = parent := fun e => Nat.lt_irrefl _ (e ▸ hp)
    simp only [Matching.sprout, Std.ExtTreeMap.getElem?_modify, Std.ExtTreeMap.getElem?_insert,
      Nat.compare_eq_eq, hne, if_false] at htoken
    split at htoken
    · obtain ⟨token', htoken', rfl⟩ := Option.map_eq_some_iff.1 htoken
      have hnew : m.nextToken ∉ token'.children := fun hc => by
        obtain ⟨o, ho, -⟩ := F.children.1 ⟨token', htoken', hc⟩
        exact Nat.lt_irrefl _ (F.lt_next ho)
      rw [List.nodup_append]
      refine ⟨F.nodup htoken', List.pairwise_singleton _ _, fun a ha b hb => ?_⟩
      rw [List.mem_singleton.1 hb]
      exact fun e => hnew (e ▸ ha)
    · split at htoken
      · cases htoken
        exact List.nodup_nil
      · exact F.nodup htoken

theorem matchOf_sprout {node : BetaNode} (hn : net.node? n = some node)
    (hl : m.LiveAt parent node.parent) {t : TokenId} {o : Origin} (ho : m.origin? t = some o) :
    (m.sprout net n parent ext).matchOf t = m.matchOf t := by
  have F' : (m.sprout net n parent ext).Forest net := F.sprout hn hl
  obtain ⟨above, habove, -⟩ := hl
  have hp := F.lt_next habove
  refine F.induction (P := fun t _ => (m.sprout net n parent ext).matchOf t = m.matchOf t)
    ?_ ?_ t o ho
  · rw [matchOf_root F, matchOf_root F']
  · intro t p n node o above ho hpar hn hnode hlt habove heq hdepth ih
    rw [matchOf_made ho hpar hlt habove, matchOf_made (origin?_sprout_of_live F hp ho) hpar hlt
      (origin?_sprout_of_live F hp habove), ih]

end

end Matching

section
variable {net : Network} {store : WorkingMemory} {x : Ledger} {m : Matching} {n : NodeId}
  {node : BetaNode} {parent : TokenId} {ext : Extension}

theorem Chained.sprout (W : net.WellFormed) (C : Chained net x m) (hn : net.node? n = some node)
    (hl : m.LiveAt parent node.parent) (hc : node.kind.Carries ext) (hf : ∀ h, ¬ x.unfiled h) :
    Chained net x (m.sprout net n parent ext) := by
  have F := C.forest
  have hp : parent < m.nextToken := by
    obtain ⟨above, habove, -⟩ := hl
    exact F.lt_next habove
  have hstands : ∀ τ t, (m.sprout net n parent ext).Stands net τ t ↔
      m.Stands net τ t ∨ (τ ∈ net.terminalsOf n ∧ t = m.nextToken) := by
    intro τ t
    rw [W.terminals]
    constructor
    · rintro ⟨terminal, hτ, hlive⟩
      rcases (Matching.liveAt_sprout F hp).1 hlive with hlive | ⟨ht, hnode⟩
      · exact Or.inl ⟨terminal, hτ, hlive⟩
      · exact Or.inr ⟨⟨terminal, hτ, hnode⟩, ht⟩
    · rintro (⟨terminal, hτ, hlive⟩ | ⟨⟨terminal, hτ, hnode⟩, ht⟩)
      · exact ⟨terminal, hτ, (Matching.liveAt_sprout F hp).2 (Or.inl hlive)⟩
      · exact ⟨terminal, hτ, (Matching.liveAt_sprout F hp).2 (Or.inr ⟨ht, hnode⟩)⟩
  constructor
  case forest => exact F.sprout hn hl
  case carries =>
    intro n' left t e kind hmade hk
    rcases (Matching.made_sprout F hp).1 hmade with hmade | ⟨rfl, -, -, rfl⟩
    · exact C.carries hmade hk
    · rw [Network.kind?_eq hn] at hk
      exact Option.some.inj hk ▸ hc
  case filed =>
    intro t h
    have hfile : t ∈ (m.sprout net n parent ext).tokensByFact.get h ↔
        (ext.handle = some h ∧ t = m.nextToken) ∨ t ∈ m.tokensByFact.get h := by
      simp only [Matching.sprout]
      cases ext.handle with
      | none => simp
      | some i => simp [Index.mem_get_file, eq_comm]
    rw [hfile, C.filed]
    constructor
    · rintro (⟨hext, rfl⟩ | ⟨hno, o, ho, hstep⟩)
      · exact ⟨hf h, _, by rw [Matching.origin?_sprout hp, if_pos rfl], hext⟩
      · exact ⟨hno, o, Matching.origin?_sprout_of_live F hp ho, hstep⟩
    · rintro ⟨hno, o, ho, hstep⟩
      rw [Matching.origin?_sprout hp] at ho
      split at ho
      · next heq =>
        cases ho
        exact Or.inl ⟨hstep, heq⟩
      · exact Or.inr ⟨hno, o, ho, hstep⟩
  case told =>
    have hold : ∀ τ ∈ net.terminalsOf n, ¬ m.Stands net τ m.nextToken := by
      rintro τ - ⟨terminal, -, o, ho, -⟩
      exact Nat.lt_irrefl _ (F.lt_next ho)
    have hevents : (m.sprout net n parent ext).events.toList =
        m.events.toList ++ (net.terminalsOf n).map fun τ => .formed τ m.nextToken :=
      Array.toList_appendList
    rw [hevents]
    refine C.told.append ?_
    exact (Replays.formed (W.nodup_terminals n) hold).congr (fun _ _ => Iff.rfl)
      fun τ t => (hstands τ t).symm

/-- A node notes at a left token that the next token is passed on for it. -/
theorem Sound.passOn (S : Sound net store x m) (hn : net.node? n = some node)
    (hl : m.LiveAt parent node.parent) (hb : x.busy n parent) :
    Writes (.at n parent) m (m.passOn net n parent) ∧
    Sound net store x (m.passOn net n parent) ∧
    (m.passOn net n parent).about n parent = if node.kind.isJoin then m.about n parent
      else { m.about n parent with output := some m.nextToken } := by
  have hjoin : (net.kind? n).any NodeKind.isJoin = node.kind.isJoin := by
    rw [Network.kind?_eq hn]
    rfl
  rw [Matching.passOn, hjoin]
  split
  · exact ⟨.refl, S, rfl⟩
  · have hother : ∀ left', left' ≠ parent →
        ({ m.node n with outputs := (m.node n).outputs.insert parent m.nextToken } :
          NodeMemory).about left' false = (m.node n).about left' false := fun left' hne => by
      have hne' : ¬ parent = left' := fun e => hne e.symm
      simp [NodeMemory.about, Std.ExtTreeMap.getElem?_insert, hne']
    refine ⟨.setNode hother, S.setNode ⟨node, hn, hl⟩ hb ((S.nodes n).congr _ _) hother, ?_⟩
    rw [Matching.about_setNode, if_pos rfl]
    simp [NodeMemory.about, Matching.about]

/-- A node makes a token: the nodes below have yet to see to it. -/
theorem Sound.sprout (W : net.WellFormed) (S : Sound net store x m) (hn : net.node? n = some node)
    (hl : m.LiveAt parent node.parent) (hb : x.busy n parent) (hc : node.kind.Carries ext)
    (hf : ∀ h, ¬ x.unfiled h) :
    Sound net store { x with busy := fun n' left => x.busy n' left ∨ left = m.nextToken }
      (m.sprout net n parent ext) where
  toChained := (S.toChained.sprout W hn hl hc hf).relabel rfl rfl
  blank {n' left} hno := by
    refine S.blank fun ⟨node', hnode', hlive⟩ => hno ⟨node', hnode', ?_⟩
    obtain ⟨above, habove, -⟩ := hl
    exact (Matching.liveAt_sprout S.forest (S.forest.lt_next habove)).2 (Or.inl hlive)
  nodes := S.nodes
  settled {n' node' left} hnode' hlive hidle := by
    rw [not_or] at hidle
    have hp : parent < m.nextToken := by
      obtain ⟨above, habove, -⟩ := hl
      exact S.forest.lt_next habove
    have hold : m.LiveAt left node'.parent := by
      rcases (Matching.liveAt_sprout S.forest hp).1 hlive with hold | ⟨hnew, -⟩
      · exact hold
      · exact absurd hnew hidle.2
    have hmade : (m.sprout net n parent ext).Made n' left = m.Made n' left := by
      funext t e
      rw [Matching.made_sprout S.forest hp]
      refine propext ⟨fun h => h.resolve_right ?_, Or.inl⟩
      rintro ⟨rfl, rfl, -⟩
      exact hidle.1 hb
    obtain ⟨o, ho, hnode⟩ := hold
    rw [hmade, Matching.matchOf_sprout S.forest hn hl ho]
    exact S.settled hnode' ⟨o, ho, hnode⟩ hidle.1

theorem moves_sprout (F : m.Forest net) (hl : m.LiveAt parent node.parent) {Q B : Spots}
    (hB : B n parent) (hBQ : ∀ {n left}, B n left → Q n left) :
    Moves net Q B m (m.sprout net n parent ext) := by
  obtain ⟨above, habove, -⟩ := hl
  have hp := F.lt_next habove
  constructor
  case toEvolves =>
    refine ⟨Nat.le_succ _, fun {t o} hlt ho => ?_, fun {n' left t e} hle hmade => ?_⟩
    · rw [Matching.origin?_sprout hp, if_neg fun e => Nat.lt_irrefl _ (e ▸ hlt)] at ho
      exact ho
    · rcases (Matching.made_sprout F hp).1 hmade with ⟨depth, ho⟩ | ⟨rfl, rfl, -, -⟩
      · exact absurd (F.lt_next ho) (Nat.not_lt.2 hle)
      · exact Or.inl hB
  case kept => exact fun ho _ => Matching.origin?_sprout_of_live F hp ho
  case record => exact fun _ _ => rfl
  case alphas => rfl
  case memoriesOf => rfl
  case deferring => rfl
  case sources => exact hBQ

end

end RuleNet
