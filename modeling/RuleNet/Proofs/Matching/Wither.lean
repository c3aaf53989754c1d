/-
  How one token goes.

  * `Matching.dropToken_eq`: taking a token away is taking it from the nodes below and letting it
    wither.
  * `Sound.wither`, `Sound.dropToken`: the node that made it has to see to what comes of it.
-/
import RuleNet.Proofs.Matching.Writes

namespace RuleNet

open Matching (Extension)

namespace Matching

/-! ## Left tokens that go -/

section
variable {m : Matching} {n : NodeId} {left : TokenId}

theorem about_removeLeft (n' : NodeId) (left' : TokenId) :
    (m.removeLeft n left).about n' left' =
      if n' = n ∧ left' = left then .blank else m.about n' left' := by
  have hmarked : (m.removeLeft n left).isMarked n' left' =
      if n' = n ∧ left' = left then false else m.isMarked n' left' := by
    simp only [isMarked, removeLeft]
    cases hd : m.deferred with
    | none => simp [setNode, hd]
    | some dirty =>
      simp only [setNode, hd, Option.map_some, Option.any_some, Std.ExtTreeSet.contains_erase]
      by_cases h : n' = n ∧ left' = left
      · obtain ⟨rfl, rfl⟩ := h
        simp [Std.ReflCmp.compare_self]
      · rw [if_neg h]
        have hno : ¬ dictionary (n, left) (n', left') = .eq := fun e => by
          have heq := Std.LawfulEqCmp.eq_of_compare e
          rw [Prod.mk.injEq] at heq
          exact h ⟨heq.1.symm, heq.2.symm⟩
        simp [hno]
  rw [about, hmarked]
  simp only [removeLeft]
  rw [show ∀ (m : Matching) (d : Option (Std.ExtTreeSet (NodeId × TokenId) dictionary)),
    ({ m with deferred := d } : Matching).node n' = m.node n' from fun _ _ => rfl, node_setNode]
  by_cases hn : n = n'
  · subst hn
    by_cases hl : left' = left
    · subst hl
      simp [NodeMemory.about, LeftRecord.blank]
    · have hl' : ¬ left = left' := fun e => hl e.symm
      simp [NodeMemory.about, about, hl, hl', Std.ExtTreeMap.getElem?_erase]
  · have hn' : ¬ n' = n := fun e => hn e.symm
    simp [hn, hn', about]

theorem writes_removeLeft : Writes (.at n left) m (m.removeLeft n left) where
  tokens := rfl
  nextToken := rfl
  tokensByFact := rfl
  events := rfl
  alphas := rfl
  memoriesOf := rfl
  deferring := by
    simp only [removeLeft, setNode]
    cases m.deferred <;> rfl
  others hne := by
    rw [about_removeLeft]
    exact if_neg hne

theorem filed_removeLeft {unlisted : Handle → Prop} (F : (m.node n).Filed unlisted) :
    ((m.removeLeft n left).node n).Filed unlisted := by
  have hnode : (m.removeLeft n left).node n = _ := node_setNode m n n _
  rw [if_pos rfl] at hnode
  rw [hnode]
  constructor
  case listed =>
    intro left' h
    rw [Index.mem_get_unfileAll, F.listed]
    by_cases hl : left' = left
    · subst hl
      simp only [and_true, LeftRecord.Lists, NodeMemory.about, Std.ExtTreeMap.getElem?_erase_self,
        List.mem_append, Std.ExtTreeSet.mem_toList]
      constructor
      · rintro ⟨⟨-, hlists⟩, hno⟩
        refine absurd ?_ hno
        rcases hlists with ⟨facts, hfacts, hh⟩ | ⟨acc, hacc, hh⟩
        · exact Or.inl (by rw [hfacts]; exact hh)
        · exact Or.inr (by rw [hacc]; exact Accumulator.mem_contributors.2 hh)
      · rintro ⟨-, ⟨facts, hfacts, -⟩ | ⟨acc, hacc, -⟩⟩
        · cases hfacts
        · cases hacc
    · have hl' : ¬ left = left' := fun e => hl e.symm
      simp [LeftRecord.Lists, NodeMemory.about, Std.ExtTreeMap.getElem?_erase, hl']
  case keyed =>
    intro left' other
    simp only [Std.ExtTreeMap.getElem?_erase, Nat.compare_eq_eq]
    by_cases hl : left' = left
    · subst hl
      rw [if_pos rfl]
      constructor
      · intro hin
        cases hk : (m.node n).leftKeys[left']? with
        | none =>
          rw [hk] at hin
          obtain ⟨k, hk', -⟩ := F.keyed.1 hin
          rw [hk] at hk'
          cases hk'
        | some key =>
          rw [hk] at hin
          obtain ⟨hin, hno⟩ := (Buckets.mem_get_unfile F.separate).1 hin
          obtain ⟨k, hk', hkey⟩ := F.keyed.1 hin
          obtain rfl := Option.some.inj (hk.symm.trans hk')
          exact absurd ⟨hkey, rfl⟩ hno
      · rintro ⟨k, hk, -⟩
        cases hk
    · have hl' : ¬ left = left' := fun e => hl e.symm
      rw [if_neg hl', ← F.keyed]
      split
      · rw [Buckets.mem_get_unfile F.separate]
        simp [hl']
      · rfl
  case separate =>
    dsimp only
    split
    · exact Buckets.separate_unfile F.separate
    · exact F.separate

/-- Take a left token away from several nodes. -/
def dropLefts (m : Matching) (cs : List NodeId) (t : TokenId) : Matching :=
  cs.foldl (fun m c => m.removeLeft c t) m

theorem about_dropLefts {cs : List NodeId} {t : TokenId} (n' : NodeId) (left' : TokenId) :
    (m.dropLefts cs t).about n' left' =
      if n' ∈ cs ∧ left' = t then .blank else m.about n' left' := by
  induction cs generalizing m with
  | nil => simp [dropLefts]
  | cons c rest ih =>
    rw [dropLefts, List.foldl_cons, ← dropLefts, ih, about_removeLeft]
    by_cases hrest : n' ∈ rest ∧ left' = t
    · rw [if_pos hrest, if_pos ⟨List.mem_cons_of_mem c hrest.1, hrest.2⟩]
    · rw [if_neg hrest]
      by_cases hc : n' = c ∧ left' = t
      · rw [if_pos hc, if_pos ⟨List.mem_cons.2 (Or.inl hc.1), hc.2⟩]
      · rw [if_neg hc, if_neg]
        rintro ⟨h, ht⟩
        rcases List.mem_cons.1 h with h | h
        · exact hc ⟨h, ht⟩
        · exact hrest ⟨h, ht⟩

theorem writes_dropLefts {cs : List NodeId} {t : TokenId} :
    Writes (fun n' left' => n' ∈ cs ∧ left' = t) m (m.dropLefts cs t) := by
  induction cs generalizing m with
  | nil => exact .refl
  | cons c rest ih =>
    refine (writes_removeLeft.mono ?_).trans (ih.mono ?_)
    · exact fun h => ⟨List.mem_cons.2 (Or.inl h.1), h.2⟩
    · exact fun h => ⟨List.mem_cons_of_mem c h.1, h.2⟩

theorem filed_dropLefts {cs : List NodeId} {t : TokenId} {unlisted : NodeId → Handle → Prop}
    (F : ∀ n, (m.node n).Filed (unlisted n)) (n : NodeId) :
    ((m.dropLefts cs t).node n).Filed (unlisted n) := by
  induction cs generalizing m with
  | nil => exact F n
  | cons c rest ih =>
    refine ih fun n' => ?_
    by_cases h : c = n'
    · subst h
      exact filed_removeLeft (F c)
    · have hsame : (m.removeLeft c t).node n' = _ := node_setNode m c n' _
      rw [hsame, if_neg h]
      exact F n'

/-! ## One token less -/

/-- Take away a token that has no children, as far as the token itself is concerned. -/
def wither (m : Matching) (net : Network) (n : NodeId) (parent t : TokenId)
    (handle : Option Handle) : Matching :=
  { m with
    tokens := (m.tokens.erase t).modify parent fun token =>
      { token with children := token.children.filter (· != t) }
    tokensByFact := match handle with
      | some h => m.tokensByFact.unfile h t
      | none => m.tokensByFact
    events := m.events.appendList ((net.terminalsOf n).map fun terminal => .broken terminal t) }

theorem dropLefts_with (tokens : Std.ExtTreeMap TokenId Token) (events : Array MatchEvent)
    (cs : List NodeId) (t : TokenId) :
    ({ m with tokens, events } : Matching).dropLefts cs t =
      { m.dropLefts cs t with tokens, events } := by
  induction cs generalizing m with
  | nil => rfl
  | cons c rest ih => exact ih (m := m.removeLeft c t)

theorem dropToken_eq {net : Network} {t parent : TokenId} {token : Token}
    (h : m.tokens[t]? = some token) (hn : token.node = some n) (hp : token.parent = some parent) :
    m.dropToken net t =
      (m.dropLefts (net.childrenOf n) t).wither net n parent t token.handle := by
  have hw : Writes (fun n' left' => n' ∈ net.childrenOf n ∧ left' = t) m
      (m.dropLefts (net.childrenOf n) t) := writes_dropLefts
  have hwith := dropLefts_with (m := m) (m.tokens.erase t)
    (m.events.appendList ((net.terminalsOf n).map fun terminal => .broken terminal t))
    (net.childrenOf n) t
  simp only [dropToken, h, hn, hp]
  rw [show ∀ (m' : Matching), (net.childrenOf n).foldl (fun m c => m.removeLeft c t) m' =
    m'.dropLefts (net.childrenOf n) t from fun _ => rfl]
  simp only [note]
  rw [hwith]
  unfold wither
  cases token.handle with
  | none => rw [hw.tokens, hw.events]
  | some i => rw [hw.tokens, hw.events]

end

section
variable {net : Network} {m : Matching} {n : NodeId} {parent t : TokenId} {depth : Nat}
  {e : Extension}

/-- The token is gone, and its parent does not list it. -/
theorem getElem?_wither (hp : parent ≠ t) {handle : Option Handle} (p : TokenId) :
    (m.wither net n parent t handle).tokens[p]? = if p = t then none else
      (m.tokens[p]?).map fun token => if parent = p then
        { token with children := token.children.filter (· != t) } else token := by
  simp only [wither, Std.ExtTreeMap.getElem?_modify, Std.ExtTreeMap.getElem?_erase,
    Nat.compare_eq_eq]
  by_cases h : parent = p
  · subst h
    rw [if_pos rfl, if_neg hp.symm, if_neg hp]
    simp only [if_true]
  · rw [if_neg h]
    by_cases ht : t = p
    · rw [if_pos ht, if_pos ht.symm]
    · rw [if_neg ht, if_neg fun h => ht h.symm]
      simp only [h, if_false]
      exact Option.map_id'.symm ▸ rfl

theorem origin?_wither (hp : parent ≠ t) {handle : Option Handle} (t' : TokenId) :
    (m.wither net n parent t handle).origin? t' = if t' = t then none else m.origin? t' := by
  rw [origin?, getElem?_wither hp]
  split
  · rfl
  · rw [Option.map_map, origin?]
    refine congrArg (Option.map · _) (funext fun token => ?_)
    show Token.origin (if _ then _ else _) = _
    split
    · rfl
    · rfl

variable (F : m.Forest net) (ht : m.origin? t = some ⟨some parent, some n, depth, e⟩)
include F ht

theorem origin?_wither_eq_some {handle : Option Handle} {t' : TokenId} {o : Origin} :
    (m.wither net n parent t handle).origin? t' = some o ↔ m.origin? t' = some o ∧ t' ≠ t := by
  rw [origin?_wither (Nat.ne_of_lt (F.lt_of_parent ht rfl))]
  split
  · next heq => simp [heq]
  · next hne => simp [hne]

theorem made_wither {handle : Option Handle} {n' : NodeId} {left t' : TokenId} {e' : Extension} :
    (m.wither net n parent t handle).Made n' left t' e' ↔ m.Made n' left t' e' ∧ t' ≠ t := by
  simp only [Made, origin?_wither_eq_some F ht]
  constructor
  · rintro ⟨depth, ho, hne⟩
    exact ⟨⟨depth, ho⟩, hne⟩
  · rintro ⟨⟨depth, ho⟩, hne⟩
    exact ⟨depth, ho, hne⟩

theorem liveAt_wither {handle : Option Handle} {t' : TokenId} {node : Option NodeId} :
    (m.wither net n parent t handle).LiveAt t' node ↔ m.LiveAt t' node ∧ t' ≠ t := by
  simp only [LiveAt, origin?_wither_eq_some F ht]
  constructor
  · rintro ⟨o, ⟨ho, hne⟩, hn⟩
    exact ⟨⟨o, ho, hn⟩, hne⟩
  · rintro ⟨⟨o, ho, hn⟩, hne⟩
    exact ⟨o, ⟨ho, hne⟩, hn⟩

theorem Forest.wither (hleaf : ∀ c o, m.origin? c = some o → o.parent ≠ some t)
    {handle : Option Handle} : (m.wither net n parent t handle).Forest net := by
  have hlt := F.lt_of_parent ht rfl
  have hsome : ∀ {i o}, (m.wither net n parent t handle).origin? i = some o ↔
      m.origin? i = some o ∧ i ≠ t := origin?_wither_eq_some F ht
  constructor
  case root => exact hsome.2 ⟨F.root, fun h => F.ne_root ht rfl h.symm⟩
  case lt_next => exact fun ho => F.lt_next (hsome.1 ho).1
  case made =>
    intro t' o ho hroot
    obtain ⟨ho, -⟩ := hsome.1 ho
    obtain ⟨p, n', node, above, hp, hn, hnode, hplt, habove, heq, hdepth⟩ := F.made ho hroot
    have hpt : p ≠ t := fun h => hleaf t' o ho (h ▸ hp)
    exact ⟨p, n', node, above, hp, hn, hnode, hplt, hsome.2 ⟨habove, hpt⟩, heq, hdepth⟩
  case children =>
    intro p c
    rw [getElem?_wither (Nat.ne_of_lt hlt)]
    by_cases heq : p = t
    · rw [if_pos heq]
      constructor
      · rintro ⟨token, htoken, -⟩
        cases htoken
      · rintro ⟨o, ho, hop⟩
        exact absurd (heq ▸ hop) (hleaf c o (hsome.1 ho).1)
    · rw [if_neg heq]
      constructor
      · rintro ⟨token, htoken, hc⟩
        obtain ⟨token', htoken', rfl⟩ := Option.map_eq_some_iff.1 htoken
        split at hc
        · obtain ⟨hc, hne⟩ := List.mem_filter.1 hc
          obtain ⟨o, ho, hop⟩ := F.children.1 ⟨token', htoken', hc⟩
          exact ⟨o, hsome.2 ⟨ho, bne_iff_ne.1 hne⟩, hop⟩
        · next hpar =>
          obtain ⟨o, ho, hop⟩ := F.children.1 ⟨token', htoken', hc⟩
          refine ⟨o, hsome.2 ⟨ho, ?_⟩, hop⟩
          rintro rfl
          obtain rfl := Option.some.inj (ht.symm.trans ho)
          exact hpar (Option.some.inj hop)
      · rintro ⟨o, ho, hop⟩
        obtain ⟨ho, hne⟩ := hsome.1 ho
        obtain ⟨token, htoken, hc⟩ := F.children.2 ⟨o, ho, hop⟩
        rw [htoken, Option.map_some]
        refine ⟨_, rfl, ?_⟩
        split
        · exact List.mem_filter.2 ⟨hc, bne_iff_ne.2 hne⟩
        · exact hc
  case nodup =>
    intro p token htoken
    rw [getElem?_wither (Nat.ne_of_lt hlt)] at htoken
    split at htoken
    · cases htoken
    · obtain ⟨token', htoken', rfl⟩ := Option.map_eq_some_iff.1 htoken
      split
      · exact List.Pairwise.filter _ (F.nodup htoken')
      · exact F.nodup htoken'

end

end Matching

section
variable {net : Network} {store : WorkingMemory} {x : Ledger} {m : Matching} {n : NodeId}
  {parent t : TokenId} {depth : Nat} {e : Extension}

theorem moves_wither (F : m.Forest net)
    (ht : m.origin? t = some ⟨some parent, some n, depth, e⟩) {handle : Option Handle}
    {Q B : Spots} (hQ : net.Touches Q n parent) (hBQ : ∀ {n left}, B n left → Q n left) :
    Moves net Q B m (m.wither net n parent t handle) := by
  have hsome : ∀ {i o}, (m.wither net n parent t handle).origin? i = some o ↔
      m.origin? i = some o ∧ i ≠ t := Matching.origin?_wither_eq_some F ht
  constructor
  case toEvolves =>
    refine ⟨Nat.le_refl _, fun _ ho => (hsome.1 ho).1, fun {n' left t' e'} hle hmade => ?_⟩
    obtain ⟨depth', ho⟩ := hmade
    exact absurd (F.lt_next (hsome.1 ho).1) (Nat.not_lt.2 hle)
  case kept =>
    intro t' o ho hq
    refine hsome.2 ⟨ho, ?_⟩
    rintro rfl
    obtain rfl := Option.some.inj (ht.symm.trans ho)
    exact hq n parent rfl rfl hQ
  case record => exact fun _ _ => rfl
  case alphas => rfl
  case memoriesOf => rfl
  case deferring => rfl
  case sources => exact hBQ

theorem Chained.wither (W : net.WellFormed) (C : Chained net x m)
    (ht : m.origin? t = some ⟨some parent, some n, depth, e⟩)
    (hleaf : ∀ c o, m.origin? c = some o → o.parent ≠ some t) :
    Chained net x (m.wither net n parent t e.handle) := by
  have F := C.forest
  have hsome : ∀ {i o}, (m.wither net n parent t e.handle).origin? i = some o ↔
      m.origin? i = some o ∧ i ≠ t := Matching.origin?_wither_eq_some F ht
  constructor
  case forest => exact F.wither ht hleaf
  case carries => exact fun hmade hk => C.carries ((Matching.made_wither F ht).1 hmade).1 hk
  case filed =>
    intro t' h
    have hunfile : t' ∈ (m.wither net n parent t e.handle).tokensByFact.get h ↔
        t' ∈ m.tokensByFact.get h ∧ ¬ (e.handle = some h ∧ t' = t) := by
      simp only [Matching.wither]
      cases e.handle with
      | none => simp
      | some i => simp [Index.mem_get_unfile, eq_comm]
    rw [hunfile, C.filed]
    constructor
    · rintro ⟨⟨hno, o, ho, hstep⟩, hne⟩
      refine ⟨hno, o, hsome.2 ⟨ho, ?_⟩, hstep⟩
      rintro rfl
      obtain rfl := Option.some.inj (ht.symm.trans ho)
      exact hne ⟨hstep, rfl⟩
    · rintro ⟨hno, o, ho, hstep⟩
      obtain ⟨ho, hne⟩ := hsome.1 ho
      exact ⟨⟨hno, o, ho, hstep⟩, fun h => hne h.2⟩
  case told =>
    have hstand : ∀ τ ∈ net.terminalsOf n, m.Stands net τ t := by
      intro τ hτ
      obtain ⟨terminal, hterminal, hnode⟩ := W.terminals.1 hτ
      exact ⟨terminal, hterminal, _, ht, hnode.symm⟩
    have hevents : (m.wither net n parent t e.handle).events.toList =
        m.events.toList ++ (net.terminalsOf n).map fun τ => .broken τ t :=
      Array.toList_appendList
    rw [hevents]
    refine C.told.append ((Replays.broken (W.nodup_terminals n) hstand).congr
      (fun _ _ => Iff.rfl) fun τ t' => ?_)
    constructor
    · rintro ⟨⟨terminal, hτ, hlive⟩, hno⟩
      refine ⟨terminal, hτ, (Matching.liveAt_wither F ht).2 ⟨hlive, ?_⟩⟩
      rintro rfl
      obtain ⟨o, ho, hnode⟩ := hlive
      obtain rfl := Option.some.inj (ht.symm.trans ho)
      exact hno ⟨W.terminals.2 ⟨terminal, hτ, hnode.symm⟩, rfl⟩
    · rintro ⟨terminal, hτ, hlive⟩
      obtain ⟨hlive, hne⟩ := (Matching.liveAt_wither F ht).1 hlive
      exact ⟨⟨terminal, hτ, hlive⟩, fun h => hne h.2⟩

/-- A token goes that has no children and for which no node holds anything. -/
theorem Sound.wither (W : net.WellFormed) (S : Sound net store x m)
    (ht : m.origin? t = some ⟨some parent, some n, depth, e⟩)
    (hleaf : ∀ c o, m.origin? c = some o → o.parent ≠ some t) (hb : x.busy n parent)
    (hblank : ∀ c, m.about c t = .blank) :
    Sound net store x (m.wither net n parent t e.handle) where
  toChained := S.toChained.wither W ht hleaf
  blank {n' left} hno := by
    by_cases hl : left = t
    · subst hl
      exact hblank n'
    · exact S.blank fun ⟨node, hnode, hlive⟩ =>
        hno ⟨node, hnode, (Matching.liveAt_wither S.forest ht).2 ⟨hlive, hl⟩⟩
  nodes := S.nodes
  settled {n' node left} hnode hlive hidle := by
    have F' : (m.wither net n parent t e.handle).Forest net := S.forest.wither ht hleaf
    have M : Moves net (.at n parent) (.at n parent) m (m.wither net n parent t e.handle) :=
      moves_wither S.forest ht (Or.inl ⟨rfl, rfl⟩) id
    have hmade : (m.wither net n parent t e.handle).Made n' left = m.Made n' left := by
      funext t' e'
      rw [Matching.made_wither S.forest ht]
      refine propext ⟨And.left, fun h => ⟨h, ?_⟩⟩
      rintro rfl
      obtain ⟨depth', ho⟩ := h
      have heq := Option.some.inj (ht.symm.trans ho)
      rw [Origin.mk.injEq] at heq
      exact hidle (by rw [← Option.some.inj heq.1, ← Option.some.inj heq.2.1]; exact hb)
    obtain ⟨o, ho, hn⟩ := hlive
    obtain ⟨hold, -⟩ := (Matching.origin?_wither_eq_some S.forest ht).1 ho
    rw [hmade, M.toEvolves.matchOf S.forest F' ho (S.forest.lt_next hold)]
    exact S.settled hnode ⟨o, hold, hn⟩ hidle

/-- One token is taken away. -/
theorem Sound.dropToken (W : net.WellFormed) (S : Sound net store x m)
    (ht : m.origin? t = some ⟨some parent, some n, depth, e⟩)
    (hleaf : ∀ c o, m.origin? c = some o → o.parent ≠ some t) (hb : x.busy n parent)
    (hbelow : ∀ c ∈ net.childrenOf n, x.busy c t) {Q B : Spots} (hQ : net.Touches Q n parent)
    (hBQ : ∀ {n left}, B n left → Q n left) :
    Sound net store x (m.dropToken net t) ∧ Moves net Q B m (m.dropToken net t) ∧
    (∀ {t' o}, (m.dropToken net t).origin? t' = some o ↔ m.origin? t' = some o ∧ t' ≠ t) ∧
    ∀ {n' left}, left ≠ t → (m.dropToken net t).about n' left = m.about n' left := by
  obtain ⟨token, htoken, horigin⟩ := Matching.origin?_eq_some.1 ht
  have hhandle : token.handle = e.handle := congrArg (fun o => o.step.handle) horigin
  rw [Matching.dropToken_eq htoken (congrArg Origin.node horigin) (congrArg Origin.parent horigin),
    hhandle]
  have hw : Writes (fun n' left' => n' ∈ net.childrenOf n ∧ left' = t) m
      (m.dropLefts (net.childrenOf n) t) := Matching.writes_dropLefts
  have hchild : ∀ {c}, c ∈ net.childrenOf n → net.Beneath n c ∧ m.LeftOf net c t := fun hc => by
    obtain ⟨node, hnode, hparent⟩ := W.children.1 hc
    exact ⟨Network.beneath_child hnode hparent, node, hnode, _, ht, hparent.symm⟩
  have S₀ : Sound net store x (m.dropLefts (net.childrenOf n) t) :=
    hw.sound S (fun h => by rw [h.2]; exact ⟨(hchild h.1).2, hbelow _ h.1⟩)
      (Matching.filed_dropLefts S.nodes)
  have ht₀ : (m.dropLefts (net.childrenOf n) t).origin? t = _ :=
    (congrFun (Matching.origin?_congr hw.tokens) t).trans ht
  have hblank : ∀ c, (m.dropLefts (net.childrenOf n) t).about c t = .blank := by
    intro c
    rw [Matching.about_dropLefts]
    by_cases hc : c ∈ net.childrenOf n
    · exact if_pos ⟨hc, rfl⟩
    · rw [if_neg fun h => hc h.1]
      refine S.blank ?_
      rintro ⟨node, hnode, o, ho, hparent⟩
      obtain rfl := Option.some.inj (ht.symm.trans ho)
      exact hc (W.children.2 ⟨node, hnode, hparent.symm⟩)
  refine ⟨S₀.wither W ht₀ (by rw [Matching.origin?_congr hw.tokens]; exact hleaf) hb hblank,
    (hw.moves S.forest (fun h => ?_) hBQ).trans (moves_wither S₀.forest ht₀ hQ hBQ), ?_, ?_⟩
  · exact Or.inr (hQ.beneath (hchild h.1).1)
  · intro t' o
    rw [Matching.origin?_wither_eq_some S₀.forest ht₀, Matching.origin?_congr hw.tokens]
  · exact fun hne => hw.others fun h => hne h.2

end

end RuleNet
