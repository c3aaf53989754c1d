/-
  What is left when tokens go.

  * `Drops`: some tokens have gone, with what nodes held for them, and nothing else.
  * `Matching.drops_detach`, `Matching.drops_strip`: a token is taken away, and what is noted of it goes.
  * `Tidy.spares_delete`: of what is left, only the token of the site is missing where it was made.
  * `Tidy.withdraw`, `Renews`: a node takes back what it passed on for a left token, or makes a result
    anew.
-/
import RuleNet.Proofs.Matching.Results
import RuleNet.Proofs.Matching.Spare
import RuleNet.Proofs.Matching.Task

namespace RuleNet

open Matching (Extension)

/-! ## Tokens that go -/

/-- Some tokens have gone, with what nodes held for them, and nothing else. -/
structure Drops (ts : List TokenId) (m m' : Matching) : Prop where
  nextToken : m'.nextToken = m.nextToken
  deferring : m'.deferred.isSome = m.deferred.isSome
  origin : ∀ t, m'.origin? t = if t ∈ ts then none else m.origin? t
  about : ∀ {n left}, left ∉ ts → m'.about n left = m.about n left
  children : ∀ {p : TokenId} {token : Token} {c}, m'.tokens[p]? = some token → c ∈ token.children →
    ∃ old, m.tokens[p]? = some old ∧ c ∈ old.children
  outputs : ∀ {n left t}, (m'.about n left).output = some t → (m.about n left).output = some t
  filed : ∀ {h t}, t ∈ m'.tokensByFact.get h → t ∈ m.tokensByFact.get h

section
variable {net : Network} {m m' m'' : Matching} {t : TokenId} {ts us : List TokenId}

theorem Drops.refl : Drops [] m m where
  nextToken := rfl
  deferring := rfl
  origin _ := rfl
  about _ := rfl
  children h hc := ⟨_, h, hc⟩
  outputs := id
  filed := id

theorem Drops.trans (h : Drops ts m m') (h' : Drops us m' m'') : Drops (ts ++ us) m m'' where
  nextToken := h'.nextToken.trans h.nextToken
  deferring := h'.deferring.trans h.deferring
  origin t := by
    rw [h'.origin, h.origin]
    by_cases ht : t ∈ ts
    · by_cases hu : t ∈ us
      · rw [if_pos hu, if_pos (List.mem_append_left us ht)]
      · rw [if_neg hu, if_pos ht, if_pos (List.mem_append_left us ht)]
    · by_cases hu : t ∈ us
      · rw [if_pos hu, if_pos (List.mem_append_right ts hu)]
      · rw [if_neg hu, if_neg ht, if_neg fun h => (List.mem_append.1 h).elim ht hu]
  about hno := by
    rw [List.mem_append, not_or] at hno
    exact (h'.about hno.2).trans (h.about hno.1)
  children hp hc := by
    obtain ⟨token, htoken, hc⟩ := h'.children hp hc
    exact h.children htoken hc
  outputs ho := h.outputs (h'.outputs ho)
  filed ht := h.filed (h'.filed ht)

theorem Drops.before (h : Drops ts m m') {o : Origin} (ho : m'.origin? t = some o) :
    m.origin? t = some o ∧ t ∉ ts := by
  rw [h.origin] at ho
  split at ho
  · cases ho
  · next hno => exact ⟨ho, hno⟩

theorem Drops.congr (h : Drops ts m m') (heq : ∀ t, t ∈ us ↔ t ∈ ts) : Drops us m m' where
  nextToken := h.nextToken
  deferring := h.deferring
  origin t := by simp only [h.origin, heq]
  about hno := h.about fun ht => hno ((heq _).2 ht)
  children := h.children
  outputs := h.outputs
  filed := h.filed

theorem Drops.of_dead (hdead : m.origin? t = none) : Drops [t] m m where
  nextToken := rfl
  deferring := rfl
  origin t' := by
    split
    · next h => rw [List.mem_singleton.1 h, hdead]
    · rfl
  about _ := rfl
  children h hc := ⟨_, h, hc⟩
  outputs := id
  filed := id

namespace Matching

/-- The nodes below forget a token that goes, and so do its parent and the list of its fact. -/
theorem strip_eq (m : Matching) (t : TokenId) (token : Token) : ∃ m₁ : Matching,
    m.strip net t token = { m₁ with
      tokensByFact := match token.handle with
        | some h => m.tokensByFact.unfile h t
        | none => m.tokensByFact
      tokens := match token.parent with
        | some parent => m.tokens.modify parent fun token =>
          { token with children := token.children.filter (· != t) }
        | none => m.tokens } ∧
    m₁.nextToken = m.nextToken ∧ m₁.deferred.isSome = m.deferred.isSome ∧
    ∀ n left, m₁.about n left = m.about n left ∨ (left = t ∧ m₁.about n left = .blank) := by
  unfold strip
  cases token.node with
  | none => exact ⟨m, rfl, rfl, rfl, fun _ _ => .inl rfl⟩
  | some n =>
    obtain ⟨m₁, hm₁⟩ : ∃ m₁, (m.note ((net.terminalsOf n).map fun τ => .broken τ t)).dropLefts
      (net.childrenOf n) t = m₁ := ⟨_, rfl⟩
    have hw := @writes_dropLefts (m.note ((net.terminalsOf n).map fun τ => .broken τ t))
      (net.childrenOf n) t
    rw [hm₁] at hw
    have htokens : m₁.tokens = m.tokens := hw.tokens
    have hfiled : m₁.tokensByFact = m.tokensByFact := hw.tokensByFact
    refine ⟨m₁, ?_, hw.nextToken, hw.deferring, fun n' left => ?_⟩
    · rw [← htokens, ← hfiled, ← hm₁]
      rfl
    · rw [← hm₁, about_dropLefts]
      split
      · next h => exact .inr ⟨h.2, rfl⟩
      · exact .inl rfl

theorem nextToken_strip (m : Matching) (t : TokenId) (token : Token) :
    (m.strip net t token).nextToken = m.nextToken := by
  obtain ⟨m₁, heq, hnext, -⟩ := @strip_eq net m t token
  rw [heq]
  exact hnext

theorem getElem?_strip (m : Matching) (t : TokenId) (token : Token) (p : TokenId) :
    (m.strip net t token).tokens[p]? = (m.tokens[p]?).map fun old =>
      if token.parent = some p then { old with children := old.children.filter (· != t) }
      else old := by
  obtain ⟨m₁, heq, -⟩ := @strip_eq net m t token
  rw [heq]
  cases token.parent with
  | none =>
    simp only [reduceCtorEq, if_false]
    exact Option.map_id'.symm ▸ rfl
  | some parent =>
    simp only [Std.ExtTreeMap.getElem?_modify, Nat.compare_eq_eq, Option.some.injEq]
    split
    · next hp => rw [hp]
    · exact Option.map_id'.symm ▸ rfl

theorem drops_detach (m : Matching) (t : TokenId) : Drops [t] m (m.detach t) where
  nextToken := rfl
  deferring := rfl
  origin t' := by
    simp only [origin?, detach, Std.ExtTreeMap.getElem?_erase, Nat.compare_eq_eq,
      List.mem_singleton, eq_comm (a := t)]
    split
    · rfl
    · rfl
  about _ := rfl
  children h hc := by
    rw [detach, Std.ExtTreeMap.getElem?_erase] at h
    split at h
    · cases h
    · exact ⟨_, h, hc⟩
  outputs := id
  filed := id

theorem drops_strip (hdead : m.tokens[t]? = none) (token : Token) :
    Drops [t] m (m.strip net t token) := by
  obtain ⟨m₁, heq, -, hdeferring, habout⟩ := @strip_eq net m t token
  constructor
  case nextToken => exact m.nextToken_strip t token
  case deferring => rw [heq]; exact hdeferring
  case origin =>
    intro t'
    have hsame : (m.strip net t token).origin? t' = m.origin? t' := by
      rw [origin?, getElem?_strip, Option.map_map]
      refine congrArg (Option.map · m.tokens[t']?) (funext fun old => ?_)
      simp only [Function.comp_apply]
      split
      · rfl
      · rfl
    rw [hsame]
    split
    · next h => rw [List.mem_singleton.1 h, origin?, hdead]; rfl
    · rfl
  case about =>
    intro n left hno
    rw [heq]
    exact (habout n left).resolve_right fun h => hno (List.mem_singleton.2 h.1)
  case children =>
    intro p token' c hp hc
    rw [getElem?_strip] at hp
    obtain ⟨old, hold, rfl⟩ := Option.map_eq_some_iff.1 hp
    refine ⟨old, hold, ?_⟩
    split at hc
    · exact (List.mem_filter.1 hc).1
    · exact hc
  case outputs =>
    intro n left out hout
    rw [heq] at hout
    change (m₁.about n left).output = some out at hout
    rcases habout n left with h | ⟨-, h⟩
    · exact h ▸ hout
    · rw [h] at hout
      cases hout
  case filed =>
    intro h t' ht'
    rw [heq] at ht'
    revert ht'
    cases token.handle with
    | none => exact id
    | some i => exact fun ht' => (Index.mem_get_unfile.1 ht').1

theorem drops_dropToken (m : Matching) (t : TokenId) : Drops [t] m (m.dropToken net t) := by
  cases htoken : m.tokens[t]? with
  | none =>
    have hsame : m.dropToken net t = m := by simp only [dropToken, htoken]
    rw [hsame]
    exact .of_dead (Option.map_eq_none_iff.2 htoken)
  | some token =>
    have hdead : (m.detach t).tokens[t]? = none := Std.ExtTreeMap.getElem?_erase_self
    rw [dropToken_eq_strip htoken]
    exact ((m.drops_detach t).trans (drops_strip hdead token)).congr (by simp)

end Matching

theorem Matching.drops_dropTokens (ts : List TokenId) (m : Matching) :
    Drops ts m (ts.foldl (dropToken net) m) := by
  induction ts generalizing m with
  | nil => exact .refl
  | cons s rest ih => exact (m.drops_dropToken s).trans (ih _)

theorem Matching.drops_delete (m : Matching) (t : TokenId) :
    Drops (m.subtree t) m (m.delete net t) := drops_dropTokens _ m

/-! ## Subtrees -/

namespace Matching

theorem mem_childrenOf {c : { c : TokenId // t < c ∧ c < m.nextToken }} :
    c ∈ m.childrenOf t → ∃ token, m.tokens[t]? = some token ∧ c.1 ∈ token.children := by
  intro hc
  unfold childrenOf at hc
  split at hc
  · cases hc
  · next token htoken =>
    obtain ⟨d, hd, heq⟩ := List.mem_filterMap.1 hc
    split at heq
    · obtain rfl := Option.some.inj heq
      exact ⟨token, htoken, hd⟩
    · cases heq

/-- Apart from its top, a subtree has with each token the token above, if children know their parents. -/
theorem parent_of_mem_subtree_of_child (hchild : ∀ {p : TokenId} {token : Token} {c},
    m.tokens[p]? = some token → c ∈ token.children → ∀ o, m.origin? c = some o → o.parent = some p)
    (t : TokenId) : ∀ s ∈ m.subtree t,
      s = t ∨ ∃ p ∈ m.subtree t, ∀ o, m.origin? s = some o → o.parent = some p := by
  induction t using Matching.subtree.induct m with
  | case1 t hlive ih =>
    intro s hs
    rw [subtree, if_pos hlive] at hs ⊢
    rcases List.mem_append.1 hs with hs | hs
    · obtain ⟨c, hc, hs⟩ := List.mem_flatMap.1 hs
      obtain ⟨token, htoken, hmem⟩ := mem_childrenOf hc
      rcases ih c s hs with rfl | ⟨p, hp, hparent⟩
      · exact .inr ⟨t, List.mem_append_right _ (List.mem_singleton_self t), hchild htoken hmem⟩
      · exact .inr ⟨p, List.mem_append_left _ (List.mem_flatMap.2 ⟨c, hc, hp⟩), hparent⟩
    · exact .inl (List.mem_singleton.1 hs)
  | case2 t hdead =>
    intro s hs
    rw [subtree, if_neg hdead] at hs
    cases hs

theorem Tidy.parent_of_mem_subtree (T : m.Tidy) (t : TokenId) : ∀ s ∈ m.subtree t,
    s = t ∨ ∃ p ∈ m.subtree t, ∀ o, m.origin? s = some o → o.parent = some p :=
  parent_of_mem_subtree_of_child (fun h hc => (T.child h hc).2) t

theorem Tidy.delete (T : m.Tidy) (t : TokenId) : (m.delete net t).Tidy := by
  have D := @Matching.drops_delete net m t
  have hsub : ∀ {s o}, (m.delete net t).origin? s = some o → m.origin? s = some o := fun ho =>
    (D.before ho).1
  constructor
  case fresh => exact fun ho => D.nextToken ▸ T.fresh (hsub ho)
  case child =>
    intro p token c hp hc
    obtain ⟨old, hold, hc⟩ := D.children hp hc
    exact ⟨D.nextToken ▸ (T.child hold hc).1, fun o ho => (T.child hold hc).2 o (hsub ho)⟩
  case output =>
    intro n left out hout
    have h := T.output (D.outputs hout)
    exact ⟨D.nextToken ▸ h.1, fun o ho => h.2 o (hsub ho)⟩
  case filed =>
    intro h s hs
    have h := T.filed (D.filed hs)
    exact ⟨D.nextToken ▸ h.1, fun o ho => h.2 o (hsub ho)⟩

/-- A token goes with all below it: of what is left, only it is missing. -/
theorem Tidy.spares_delete (T : m.Tidy) (t : TokenId) : Spares net
    (fun n left h => ∃ o, m.origin? t = some o ∧ o.node = some n ∧ o.parent = some left ∧
      o.step.handle = some h)
    (fun _ _ n left => (m.about n left).output = some t ∧ m.Lives t) m (m.delete net t) := by
  have D := @Matching.drops_delete net m t
  have hsub : ∀ {s o}, (m.delete net t).origin? s = some o → m.origin? s = some o ∧
      s ∉ m.subtree t := D.before
  have hkeep : ∀ {s o}, m.origin? s = some o → s ∉ m.subtree t →
      (m.delete net t).origin? s = some o := fun ho hno => by rw [D.origin, if_neg hno, ho]
  constructor
  case toLater => exact ⟨Nat.le_of_eq D.nextToken.symm, D.deferring, fun _ ho => (hsub ho).1⟩
  case joins =>
    intro s o n left h ho hn hp hh hno _ hlives
    obtain ⟨above, habove⟩ := hlives
    refine hkeep ho fun hs => ?_
    rcases T.parent_of_mem_subtree t s hs with rfl | ⟨p, hpmem, hparent⟩
    · exact hno ⟨o, ho, hn, hp, hh⟩
    · obtain rfl := Option.some.inj (hp.symm.trans (hparent o ho))
      exact (hsub habove).2 hpmem
  case born =>
    intro s o n left h ho hle _ _ _ _
    exact absurd (T.fresh (hsub ho).1) (Nat.not_lt.2 hle)
  case held =>
    intro _ s o n ho hle _
    exact absurd (T.fresh (hsub ho).1) (Nat.not_lt.2 hle)
  case spots =>
    intro n left _ hlives
    obtain ⟨above, habove⟩ := hlives
    by_cases hout : (m.about n left).output = some t ∧ m.Lives t
    · exact .inr hout
    · refine .inl ⟨D.about (hsub habove).2, fun s hs => ?_⟩
      rw [D.origin]
      split
      · next hmem =>
        cases ho : m.origin? s with
        | none => rfl
        | some o =>
          rcases T.parent_of_mem_subtree t s hmem with rfl | ⟨p, hpmem, hparent⟩
          · exact absurd ⟨hs, o, ho⟩ hout
          · obtain rfl := Option.some.inj (((T.output hs).2 o ho).2.1.symm.trans (hparent o ho))
            exact absurd hpmem (hsub habove).2
      · rfl

end Matching

end

/-! ## Taking back -/

namespace Matching

variable {net : Network} {store : WorkingMemory} {m m' : Matching} {n : NodeId} {left : TokenId}

/-- The result that stands is what the output carries. -/
theorem standing?_eq_bind : m.standing? n left =
    (m.about n left).output.bind fun t => (m.origin? t).bind fun o => o.step.value := by
  show (do let out ← (m.node n).outputs[left]?; let token ← m.tokens[out]?; token.value) =
    ((m.node n).outputs[left]?).bind fun t => ((m.tokens[t]?).map Token.origin).bind fun o => o.step.value
  cases (m.node n).outputs[left]? with
  | none => rfl
  | some t => cases h : m.tokens[t]? <;> simp [h, Token.origin, Token.step]

theorem Unmoved.standing (h : m.Unmoved m' n left) : m'.standing? n left = m.standing? n left := by
  rw [standing?_eq_bind, standing?_eq_bind, h.1]
  cases hout : (m.about n left).output with
  | none => rfl
  | some t => rw [Option.bind_some, Option.bind_some, h.2 t hout]

/-- A node takes back what it passed on for a left token, if it did. -/
theorem Tidy.withdraw (T : m.Tidy) (hm' : m.withdraw net n left = m') : m'.Tidy ∧
    Spares net .none (fun _ _ => .at n left) m m' ∧
    (left < m.nextToken → m'.Lives left →
      m'.about n left = { m.about n left with output := none }) := by
  cases hout : (m.node n).outputs[left]? with
  | none =>
    simp only [Matching.withdraw, hout] at hm'
    subst hm'
    have hnone : (m.about n left).output = none := hout
    exact ⟨T, Writes.refl.spares T, fun _ _ => by rw [← hnone]⟩
  | some out =>
    simp only [Matching.withdraw, hout] at hm'
    have hself : (m.about n left).output = some out := hout
    have hw : Writes (.at n left) m
        (m.setNode n { m.node n with outputs := (m.node n).outputs.erase left }) :=
      .setNode fun left' hne => by
        have hne' : ¬ left = left' := fun e => hne e.symm
        simp [NodeMemory.about, Std.ExtTreeMap.getElem?_erase, hne']
    have habout : (m.setNode n { m.node n with outputs := (m.node n).outputs.erase left }).about
        n left = { m.about n left with output := none } := by
      rw [about_setNode, if_pos rfl]
      simp [NodeMemory.about, about]
    generalize m.setNode n { m.node n with outputs := (m.node n).outputs.erase left } = m₁
      at hm' hw habout
    have hless : ∀ {n' left' t}, (m₁.about n' left').output = some t →
        (m.about n' left').output = some t := by
      intro n' left' t ht
      by_cases hat : Spots.at n left n' left'
      · obtain ⟨rfl, rfl⟩ := hat
        rw [habout] at ht
        cases ht
      · rw [hw.others hat] at ht
        exact ht
    have T₁ := hw.tidy T hless
    have D : Spares net _ _ m₁ m' := hm' ▸ @Tidy.spares_delete net m₁ T₁ out
    refine ⟨hm' ▸ T₁.delete out, (hw.spares T).trans D id ?_ (fun h _ => h) ?_ (fun h _ => h), ?_⟩
    · rintro k l i - ⟨o, ho, -, -, hh⟩
      rw [origin?_congr hw.tokens] at ho
      rw [((T.output hself).2 o ho).2.2] at hh
      cases hh
    · rintro k l - - ⟨hkl, o, ho⟩
      rw [origin?_congr hw.tokens] at ho
      obtain ⟨hn, hp, -⟩ := (T.output hself).2 o ho
      obtain ⟨hk, hl, -⟩ := (T.output (hless hkl)).2 o ho
      exact .inr ⟨Option.some.inj (hk.symm.trans hn), Option.some.inj (hl.symm.trans hp)⟩
    · intro hlt hlives
      have hun : m₁.Unmoved m' n left := (D.spots (hw.nextToken ▸ hlt) hlives).resolve_right (by
        rintro ⟨h, -⟩
        rw [habout] at h
        cases h)
      rw [hun.1, habout]

end Matching

/-! ## Making anew -/

/-- The result of a left token has been made anew. -/
structure Renews (net : Network) (n : NodeId) (left : TokenId) (result : Option Value)
    (m m' : Matching) : Prop where
  tidy : m'.Tidy
  spares : Spares net .none (fun _ _ => .at n left) m m'
  about : left < m.nextToken → m'.Lives left → ∃ output,
    m'.about n left = { m.about n left with output } ∧ ∀ t, output = some t → m.nextToken ≤ t
  standing : left < m.nextToken → m'.Lives left → m'.standing? n left = result

namespace Matching

variable {net : Network} {store : WorkingMemory} {m m' : Matching} {n : NodeId} {left : TokenId}
  (W : net.WellFormed)
include W

/-- A result is made anew, unless results are deferred. -/
theorem Tidy.renews (T : m.Tidy) (hjoin : (net.kind? n).any NodeKind.isJoin = false)
    (hd : m.deferred.isSome = false) (result : Option Value)
    (hm' : m.renew net store n left result = m') : Renews net n left result m m' := by
  obtain ⟨T₁, D, habout⟩ := @Tidy.withdraw net m _ n left T rfl
  simp only [Matching.renew] at hm'
  generalize m.withdraw net n left = m₁ at hm' T₁ D habout
  cases result with
  | none =>
    subst hm'
    refine ⟨T₁, D, fun hlt hl => ⟨none, habout hlt hl, nofun⟩, fun hlt hl => ?_⟩
    rw [standing?_eq_bind, habout hlt hl]
    rfl
  | some v =>
    have S := Matching.sprouts W store n m₁ left (.result v) T₁
      ⟨fun _ => rfl, fun hs => absurd (D.deferring.symm.trans hs) (by rw [hd]; exact Bool.noConfusion)⟩
    dsimp only at hm'
    rw [hm'] at S
    have habout' : left < m.nextToken → m'.Lives left →
        m'.about n left = { m.about n left with output := some m₁.nextToken } := fun hlt hl => by
      have hlt₁ := Nat.lt_of_lt_of_le hlt D.next
      obtain ⟨o, ho⟩ := hl
      rw [S.about hlt₁ ⟨o, ho⟩, hjoin, if_neg Bool.false_ne_true,
        habout hlt ⟨o, S.grows.survive hlt₁ ho⟩]
    refine ⟨S.grows.tidy, D.trans S.grows.toSpares id ?_ (fun h _ => h) (fun _ _ h => .inr h)
      (fun h _ => h), fun hlt hl => ⟨_, habout' hlt hl, ?_⟩, fun hlt hl => ?_⟩
    · rintro k l i - ⟨-, -, h⟩
      cases h
    · rintro t ⟨⟩
      exact D.next
    · rw [standing?_eq_bind, habout' hlt hl, Option.bind_some, S.token]
      rfl

end Matching

end RuleNet
