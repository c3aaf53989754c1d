/-
  What a step of propagation spares.

  Tokens are numbered as they are made, so the number of a token tells whether it was there before a
  step. What was there before stays as it was, unless the step is about it or it goes with the token
  above.

  * `Matching.Tidy`: tokens know no children but their own, and nodes no outputs but their own.
  * `Spares`: a step spares what was there before, but for tokens of some facts at joins and for what
    other nodes hold for some left tokens.
  * `Grows`: such a step that takes nothing away.
  * `Sprouts`, `Matching.sprouts`: a node makes a token, with everything that follows below.
-/
import RuleNet.Proofs.Matching.Emit

namespace RuleNet

open Matching (Extension contribution)

/-- Whether a node folds facts. -/
def NodeKind.folds : NodeKind → Bool
  | .accumulate _ _ _ => true
  | _ => false

/-! ## Matchings in order -/

namespace Matching

/-- Whether a token is live. -/
def Lives (m : Matching) (t : TokenId) : Prop := ∃ o, m.origin? t = some o

/-- Tokens know no children but their own, nodes no outputs but their own, and tokens are filed under
    no facts but theirs. -/
structure Tidy (m : Matching) : Prop where
  fresh : ∀ {t o}, m.origin? t = some o → t < m.nextToken
  child : ∀ {p : TokenId} {token : Token} {c}, m.tokens[p]? = some token → c ∈ token.children →
    c < m.nextToken ∧ ∀ o, m.origin? c = some o → o.parent = some p
  output : ∀ {n left t}, (m.about n left).output = some t → t < m.nextToken ∧
    ∀ o, m.origin? t = some o → o.node = some n ∧ o.parent = some left ∧ o.step.handle = none
  filed : ∀ {h t}, t ∈ m.tokensByFact.get h → t < m.nextToken ∧
    ∀ o, m.origin? t = some o → o.step.handle = some h

/-- A node holds the same for a left token, and what it passed on is as it was. -/
def Unmoved (m m' : Matching) (n : NodeId) (left : TokenId) : Prop :=
  m'.about n left = m.about n left ∧
    ∀ t, (m.about n left).output = some t → m'.origin? t = m.origin? t

theorem Unmoved.trans {m m' m'' : Matching} {n : NodeId} {left : TokenId}
    (h : m.Unmoved m' n left) (h' : m'.Unmoved m'' n left) : m.Unmoved m'' n left :=
  ⟨h'.1.trans h.1, fun t ht => (h'.2 t (by rw [h.1]; exact ht)).trans (h.2 t ht)⟩

end Matching

/-! ## Steps -/

/-- Tokens that were there before stay as they were or go, and new ones have other numbers. -/
structure Later (m m' : Matching) : Prop where
  next : m.nextToken ≤ m'.nextToken
  deferring : m'.deferred.isSome = m.deferred.isSome
  survive : ∀ {t o}, t < m.nextToken → m'.origin? t = some o → m.origin? t = some o

theorem Later.refl (m : Matching) : Later m m := ⟨Nat.le_refl _, rfl, fun _ h => h⟩

theorem Later.trans {m m' m'' : Matching} (h : Later m m') (h' : Later m' m'') : Later m m'' where
  next := Nat.le_trans h.next h'.next
  deferring := h'.deferring.trans h.deferring
  survive hlt ho := h.survive hlt (h'.survive (Nat.lt_of_lt_of_le hlt h.next) ho)

/-- A token that is there later was there before. -/
theorem Later.lives {m m' : Matching} (h : Later m m') {t : TokenId} (hlt : t < m.nextToken)
    (ht : m'.Lives t) : m.Lives t := by
  obtain ⟨o, ho⟩ := ht
  exact ⟨o, h.survive hlt ho⟩

/-- Joins with left tokens and facts. -/
abbrev Sites := NodeId → TokenId → Handle → Prop

/-- A step that spares what was there before: at joins all tokens but those of some facts, unless
    they go with their parents, and what nodes hold for left tokens that stay, but for some. While
    results are deferred, it makes none. -/
structure Spares (net : Network) (J : Sites) (X : Matching → Matching → Spots)
    (m m' : Matching) : Prop extends Later m m' where
  joins : ∀ {t o n left h}, m.origin? t = some o → o.node = some n → o.parent = some left →
    o.step.handle = some h → ¬ J n left h → left < m.nextToken → m'.Lives left →
    m'.origin? t = some o
  born : ∀ {t o n left h}, m'.origin? t = some o → m.nextToken ≤ t → o.node = some n →
    o.parent = some left → o.step.handle = some h → left < m.nextToken → J n left h
  held : m.deferred.isSome = true → ∀ {t o n}, m'.origin? t = some o → m.nextToken ≤ t →
    o.node = some n → (net.kind? n).any NodeKind.folds = false
  spots : ∀ {n left}, left < m.nextToken → m'.Lives left → m.Unmoved m' n left ∨ X m m' n left

/-- A step that takes nothing away. -/
structure Grows (net : Network) (J : Sites) (Q : Spots) (m m' : Matching) : Prop extends
    Spares net J (fun _ _ => Q) m m' where
  tidy : m'.Tidy
  persist : ∀ {t o}, m.origin? t = some o → m'.origin? t = some o

section
variable {net : Network} {store : WorkingMemory} {I J K : Sites} {Q R P : Spots}
  {X Y Z : Matching → Matching → Spots} {m m' m'' : Matching}

/-- What two steps do at a spot is left to say where its left token stays. -/
theorem Spares.compose (h : Spares net J X m m') (h' : Spares net K Y m' m'')
    (hJ : ∀ {n left i}, J n left i → I n left i)
    (hK : ∀ {n left i}, left < m.nextToken → K n left i → I n left i)
    (hZ : ∀ {n left}, left < m.nextToken → m''.Lives left →
      m.Unmoved m' n left ∨ X m m' n left → m'.Unmoved m'' n left ∨ Y m' m'' n left →
      m.Unmoved m'' n left ∨ Z m m'' n left) :
    Spares net I Z m m'' where
  toLater := h.toLater.trans h'.toLater
  joins ho hn hp hh hno hlt hlives := by
    have hlt' := Nat.lt_of_lt_of_le hlt h.next
    exact h'.joins (h.joins ho hn hp hh (fun hj => hno (hJ hj)) hlt (h'.lives hlt' hlives)) hn hp hh
      (fun hk => hno (hK hlt hk)) hlt' hlives
  born {t o n left i} ho hle hn hp hh hlt := by
    by_cases hold : t < m'.nextToken
    · exact hJ (h.born (h'.survive hold ho) hle hn hp hh hlt)
    · exact hK hlt (h'.born ho (Nat.not_lt.1 hold) hn hp hh (Nat.lt_of_lt_of_le hlt h.next))
  held hd {t o n} ho hle hn := by
    by_cases hold : t < m'.nextToken
    · exact h.held hd (h'.survive hold ho) hle hn
    · exact h'.held (h.deferring.trans hd) ho (Nat.not_lt.1 hold) hn
  spots hlt hlives := by
    have hlt' := Nat.lt_of_lt_of_le hlt h.next
    exact hZ hlt hlives (h.spots hlt (h'.lives hlt' hlives)) (h'.spots hlt' hlives)

theorem Spares.trans (h : Spares net J X m m') (h' : Spares net K Y m' m'')
    (hJ : ∀ {n left i}, J n left i → I n left i)
    (hK : ∀ {n left i}, left < m.nextToken → K n left i → I n left i)
    (hX : ∀ {n left}, X m m' n left → m'.Unmoved m'' n left → Z m m'' n left)
    (hY : ∀ {n left}, left < m.nextToken → m.Unmoved m' n left → Y m' m'' n left →
      m.Unmoved m'' n left ∨ Z m m'' n left)
    (hXY : ∀ {n left}, X m m' n left → Y m' m'' n left → Z m m'' n left) :
    Spares net I Z m m'' :=
  h.compose h' hJ hK fun hlt _ hx hy => by
    rcases hx with hu | hx
    · rcases hy with hu' | hy
      · exact .inl (hu.trans hu')
      · exact hY hlt hu hy
    · rcases hy with hu' | hy
      · exact .inr (hX hx hu')
      · exact .inr (hXY hx hy)

theorem Spares.mono (h : Spares net J X m m')
    (hJ : ∀ {n left i}, left < m.nextToken → J n left i → K n left i)
    (hX : ∀ {n left}, left < m.nextToken → X m m' n left → Y m m' n left) :
    Spares net K Y m m' where
  toLater := h.toLater
  joins ho hn hp hh hno hlt := h.joins ho hn hp hh (fun hj => hno (hJ hlt hj)) hlt
  born ho hle hn hp hh hlt := hJ hlt (h.born ho hle hn hp hh hlt)
  held := h.held
  spots hlt hlives := (h.spots hlt hlives).imp_right (hX hlt)

/-- The spots and sites of a second step count as far as they were there before the first one. -/
theorem Grows.trans (h : Grows net J Q m m') (h' : Grows net K R m' m'')
    (hK : ∀ {n left i}, left < m.nextToken → K n left i → J n left i)
    (hR : ∀ {n left}, left < m.nextToken → R n left → Q n left) : Grows net J Q m m'' where
  toSpares := h.toSpares.trans h'.toSpares id hK (fun hq _ => hq)
    (fun hlt _ hr => .inr (hR hlt hr)) (fun hq _ => hq)
  tidy := h'.tidy
  persist ho := h'.persist (h.persist ho)

theorem Grows.mono (h : Grows net J Q m m')
    (hJ : ∀ {n left i}, left < m.nextToken → J n left i → K n left i)
    (hQ : ∀ {n left}, left < m.nextToken → Q n left → R n left) : Grows net K R m m' :=
  ⟨h.toSpares.mono hJ hQ, h.tidy, h.persist⟩

/-- No join makes or loses tokens. -/
def Sites.none : Sites := fun _ _ _ => False

/-- The site of what a node makes for a left token. -/
def Sites.of (n : NodeId) (left : TokenId) (e : Extension) : Sites :=
  fun n' left' h => n' = n ∧ left' = left ∧ e.handle = some h

/-- A step that makes and takes no tokens spares all but what it writes. -/
theorem Writes.spares (h : Writes P m m') (T : m.Tidy) : Spares net .none (fun _ _ => P) m m' where
  next := Nat.le_of_eq h.nextToken.symm
  deferring := h.deferring
  survive _ ho := by rw [Matching.origin?_congr h.tokens] at ho; exact ho
  joins ho _ _ _ _ _ _ := by rw [Matching.origin?_congr h.tokens]; exact ho
  born ho hle _ _ _ _ := by
    rw [Matching.origin?_congr h.tokens] at ho
    exact absurd (T.fresh ho) (Nat.not_lt.2 hle)
  held _ {t o n} ho hle _ := by
    rw [Matching.origin?_congr h.tokens] at ho
    exact absurd (T.fresh ho) (Nat.not_lt.2 hle)
  spots {n left} _ _ := by
    by_cases hp : P n left
    · exact .inr hp
    · exact .inl ⟨h.others hp, fun t _ => by rw [Matching.origin?_congr h.tokens]⟩

/-- A matching stays tidy if no node gets another output. -/
theorem Writes.tidy (h : Writes P m m') (T : m.Tidy)
    (hout : ∀ {n left t}, (m'.about n left).output = some t → (m.about n left).output = some t) :
    m'.Tidy where
  fresh ho := by
    rw [Matching.origin?_congr h.tokens] at ho
    rw [h.nextToken]
    exact T.fresh ho
  child := by rw [h.tokens, h.nextToken, Matching.origin?_congr h.tokens]; exact T.child
  output ho := by
    rw [h.nextToken, Matching.origin?_congr h.tokens]
    exact T.output (hout ho)
  filed := by rw [h.tokensByFact, h.nextToken, Matching.origin?_congr h.tokens]; exact T.filed

theorem Writes.grows (h : Writes P m m') (T : m.Tidy)
    (hout : ∀ {n left t}, (m'.about n left).output = some t → (m.about n left).output = some t) :
    Grows net .none P m m' where
  toSpares := h.spares T
  tidy := h.tidy T hout
  persist ho := by rw [Matching.origin?_congr h.tokens]; exact ho

/-- A node writes its memory and keeps its outputs. -/
theorem Matching.outputs_setNode {n : NodeId} {memory : NodeMemory}
    (hout : memory.outputs = (m.node n).outputs) (n' : NodeId) (left : TokenId) :
    ((m.setNode n memory).about n' left).output = (m.about n' left).output := by
  rw [Matching.about_setNode]
  split
  · next heq =>
    subst heq
    exact congrArg (fun outputs : Std.ExtTreeMap TokenId TokenId => outputs[left]?) hout
  · rfl

end

/-! ## Arriving -/

namespace Matching

variable {net : Network} {store : WorkingMemory} {m : Matching} {n : NodeId} {left : TokenId}

theorem grows_mark (T : m.Tidy) {dirty : Std.ExtTreeSet (NodeId × TokenId) dictionary}
    (hd : m.deferred = some dirty) :
    Grows net .none (.at n left) m { m with deferred := some (dirty.insert (n, left)) } :=
  (Writes.mark hd).grows T fun h => h

theorem grows_fileLeft (T : m.Tidy) (kind : NodeKind) :
    Grows net .none (.at n left) m (m.fileLeft store n kind left) := by
  refine writes_fileLeft.grows T fun {n' left' t} ho => ?_
  rw [fileLeft, outputs_setNode] at ho
  · exact ho
  · cases kind.index? <;> rfl

theorem grows_fileFound (T : m.Tidy) (facts : List Handle) :
    Grows net .none (.at n left) m (m.fileFound n left facts) := by
  have hw : Writes (.at n left) m (m.fileFound n left facts) := .setNode fun left' hne => by
    have hne' : ¬ left = left' := fun e => hne e.symm
    simp [NodeMemory.about, Std.ExtTreeMap.getElem?_insert, hne']
  exact hw.grows T fun ho => by
    rw [fileFound, outputs_setNode] at ho
    · exact ho
    · rfl

theorem grows_fileAccumulator (T : m.Tidy) (acc : Accumulator) :
    Grows net .none (.at n left) m (m.fileAccumulator n left acc) := by
  have hw : Writes (.at n left) m (m.fileAccumulator n left acc) := .setNode fun left' hne => by
    have hne' : ¬ left = left' := fun e => hne e.symm
    simp [NodeMemory.about, Std.ExtTreeMap.getElem?_insert, hne']
  exact hw.grows T fun ho => by
    rw [fileAccumulator, outputs_setNode] at ho
    · exact ho
    · rfl

/-- What a node passes on fits its kind, and it is no result while results are deferred. -/
def Offers (net : Network) (m : Matching) (n : NodeId) (e : Extension) : Prop :=
  ((net.kind? n).any NodeKind.isJoin = false → e.handle = none) ∧
    (m.deferred.isSome = true → (net.kind? n).any NodeKind.folds = false)

/-- A token arrives at a node. -/
theorem grows_arrive (T : m.Tidy) :
    Grows net .none (.at n left) m (m.arrive net store n left).2 ∧
    ∀ e ∈ (m.arrive net store n left).1, Offers net (m.arrive net store n left).2 n e := by
  cases hk : net.kind? n with
  | none =>
    simp only [arrive, hk]
    exact ⟨Writes.refl.grows T id, fun e he => absurd he List.not_mem_nil⟩
  | some kind =>
    have G := @grows_fileLeft net store m n left T kind
    have hnothing : ∀ {m' : Matching} {es : List Extension}, (∀ e ∈ es, e = .nothing) →
        kind.folds = false → ∀ e ∈ es, Offers net m' n e := by
      intro m' es hes hfolds e he
      obtain rfl := hes e he
      exact ⟨fun _ => rfl, fun _ => by rw [hk]; exact hfolds⟩
    cases kind with
    | join feed =>
      simp only [arrive, hk]
      refine ⟨G, fun e _ => ⟨fun hj => ?_, fun _ => by rw [hk]; rfl⟩⟩
      rw [hk] at hj
      cases hj
    | absent feed =>
      simp only [arrive, hk]
      refine ⟨G.trans (grows_fileFound G.tidy _) (fun _ => id) (fun _ => id),
        hnothing (fun e he => ?_) rfl⟩
      split at he
      · exact List.mem_singleton.1 he
      · cases he
    | present feed =>
      simp only [arrive, hk]
      refine ⟨G.trans (grows_fileFound G.tidy _) (fun _ => id) (fun _ => id),
        hnothing (fun e he => ?_) rfl⟩
      split at he
      · cases he
      · exact List.mem_singleton.1 he
    | predicate p scope =>
      simp only [arrive, hk]
      refine ⟨G, hnothing (fun e he => ?_) rfl⟩
      split at he
      · exact List.mem_singleton.1 he
      · cases he
    | accumulate feed fold having =>
      simp only [arrive, hk]
      generalize Accumulator.ofList fold _ = acc
      have G' := G.trans (@grows_fileAccumulator net _ n left G.tidy acc) (fun _ => id)
        (fun _ => id)
      split
      · next dirty hd =>
        exact ⟨G'.trans (grows_mark G'.tidy hd) (fun _ => id) (fun _ => id),
          fun e he => absurd he List.not_mem_nil⟩
      · next hd =>
        refine ⟨G', fun e he => ⟨fun _ => ?_, fun hs => ?_⟩⟩
        · obtain ⟨v, -, rfl⟩ := List.mem_map.1 he
          rfl
        · rw [hd] at hs
          cases hs

/-! ## One token more -/

theorem passOn_eq (m : Matching) (net : Network) (n : NodeId) (left : TokenId) :
    (m.passOn net n left).tokens = m.tokens ∧
    (m.passOn net n left).nextToken = m.nextToken ∧
    (m.passOn net n left).tokensByFact = m.tokensByFact ∧
    (m.passOn net n left).deferred = m.deferred := by
  rw [passOn]
  split
  · exact ⟨rfl, rfl, rfl, rfl⟩
  · exact ⟨rfl, rfl, rfl, rfl⟩

theorem nextToken_addToken (e : Extension) :
    (m.addToken net n left e).nextToken = m.nextToken + 1 := by
  rw [addToken_eq, sprout, (m.passOn_eq net n left).2.1]

theorem origin?_addToken (e : Extension) (t : TokenId) : (m.addToken net n left e).origin? t =
    if t = m.nextToken then some ⟨some left, some n, net.depthOf n, e⟩ else m.origin? t := by
  rw [addToken_eq, ← origin?_congr (m.passOn_eq net n left).1, ← (m.passOn_eq net n left).2.1]
  generalize m.passOn net n left = m'
  simp only [origin?, sprout, Std.ExtTreeMap.getElem?_modify, Std.ExtTreeMap.getElem?_insert,
    Nat.compare_eq_eq]
  by_cases h : t = m'.nextToken
  · subst h
    rw [if_pos rfl, if_pos rfl]
    split
    · next heq =>
      rw [if_pos heq.symm]
      rfl
    · rfl
  · have h' : ¬ m'.nextToken = t := fun e => h e.symm
    rw [if_neg h, if_neg h']
    split
    · next heq =>
      subst heq
      rw [if_neg h', Option.map_map]
      rfl
    · rfl

theorem about_addToken (e : Extension) (n' : NodeId) (left' : TokenId) :
    (m.addToken net n left e).about n' left' =
      if (net.kind? n).any NodeKind.isJoin = false ∧ n' = n ∧ left' = left
      then { m.about n left with output := some m.nextToken } else m.about n' left' := by
  rw [addToken_eq]
  show (m.passOn net n left).about n' left' = _
  rw [passOn]
  split
  · next hjoin => rw [if_neg fun h => Bool.false_ne_true (h.1.symm.trans hjoin)]
  · next hjoin =>
    rw [Bool.not_eq_true] at hjoin
    rw [about_setNode]
    by_cases hn : n = n'
    · subst hn
      by_cases hl : left' = left
      · subst hl
        rw [if_pos rfl, if_pos ⟨hjoin, rfl, rfl⟩]
        simp [NodeMemory.about, about]
      · have hl' : ¬ left = left' := fun e => hl e.symm
        rw [if_pos rfl, if_neg fun h => hl h.2.2]
        simp [NodeMemory.about, about, Std.ExtTreeMap.getElem?_insert, hl']
    · rw [if_neg hn, if_neg fun h => hn h.2.1.symm]

/-- Tokens have the children they had, but for a new one. -/
theorem children_addToken {e : Extension} {p c : TokenId} {token : Token}
    (h : (m.addToken net n left e).tokens[p]? = some token) (hc : c ∈ token.children) :
    (c = m.nextToken ∧ p = left) ∨ ∃ old, m.tokens[p]? = some old ∧ c ∈ old.children := by
  rw [addToken_eq, sprout, (m.passOn_eq net n left).1, (m.passOn_eq net n left).2.1] at h
  simp only [Std.ExtTreeMap.getElem?_modify, Std.ExtTreeMap.getElem?_insert,
    Nat.compare_eq_eq] at h
  have hplain : ∀ {q : TokenId} {old : Token}, (if m.nextToken = q then
      some ⟨some left, some n, net.depthOf n, e.handle, e.value, []⟩
      else m.tokens[q]?) = some old → c ∈ old.children →
      ∃ old, m.tokens[q]? = some old ∧ c ∈ old.children := by
    intro q old hq hc
    split at hq
    · cases hq
      cases hc
    · exact ⟨old, hq, hc⟩
  split at h
  · next heq =>
    subst heq
    obtain ⟨old, hold, rfl⟩ := Option.map_eq_some_iff.1 h
    rcases List.mem_append.1 hc with hc | hc
    · exact .inr (hplain hold hc)
    · exact .inl ⟨List.mem_singleton.1 hc, rfl⟩
  · exact .inr (hplain h hc)

/-- Tokens are filed as they were, but for a new one. -/
theorem filed_addToken {e : Extension} {h : Handle} {t : TokenId}
    (ht : t ∈ (m.addToken net n left e).tokensByFact.get h) :
    (e.handle = some h ∧ t = m.nextToken) ∨ t ∈ m.tokensByFact.get h := by
  rw [addToken_eq, sprout, (m.passOn_eq net n left).2.1, (m.passOn_eq net n left).2.2.1] at ht
  cases he : e.handle with
  | none =>
    rw [he] at ht
    exact .inr ht
  | some i =>
    rw [he] at ht
    rcases Index.mem_get_file.1 ht with ⟨rfl, rfl⟩ | ht
    · exact .inl ⟨rfl, rfl⟩
    · exact .inr ht

/-- A live token was there, or it is the new one. -/
theorem origin?_addToken_cases {e : Extension} {t : TokenId} {o : Origin}
    (ho : (m.addToken net n left e).origin? t = some o) :
    (t = m.nextToken ∧ o = ⟨some left, some n, net.depthOf n, e⟩) ∨ m.origin? t = some o := by
  rw [origin?_addToken] at ho
  split at ho
  · next heq => exact .inl ⟨heq, (Option.some.inj ho).symm⟩
  · exact .inr ho

theorem origin?_addToken_of_lt {e : Extension} {t : TokenId} (hlt : t < m.nextToken) :
    (m.addToken net n left e).origin? t = m.origin? t := by
  rw [origin?_addToken, if_neg (Nat.ne_of_lt hlt)]

theorem Tidy.addToken (T : m.Tidy) {e : Extension} (hoffers : Offers net m n e) :
    (m.addToken net n left e).Tidy := by
  have hnew : ∀ {o}, (m.addToken net n left e).origin? m.nextToken = some o →
      o = ⟨some left, some n, net.depthOf n, e⟩ := fun ho => by
    rw [origin?_addToken, if_pos rfl] at ho
    exact (Option.some.inj ho).symm
  constructor
  case fresh =>
    intro t o ho
    rw [nextToken_addToken]
    rcases origin?_addToken_cases ho with ⟨rfl, -⟩ | ho
    · exact Nat.lt_succ_self _
    · exact Nat.lt_succ_of_lt (T.fresh ho)
  case child =>
    intro p token c htoken hc
    rw [nextToken_addToken]
    rcases children_addToken htoken hc with ⟨rfl, rfl⟩ | ⟨old, hold, hc⟩
    · exact ⟨Nat.lt_succ_self _, fun o ho => hnew ho ▸ rfl⟩
    · obtain ⟨hlt, hparent⟩ := T.child hold hc
      exact ⟨Nat.lt_succ_of_lt hlt, fun o ho => hparent o (origin?_addToken_of_lt hlt ▸ ho)⟩
  case output =>
    intro n' left' t ht
    rw [about_addToken] at ht
    rw [nextToken_addToken]
    split at ht
    · next h =>
      obtain ⟨hjoin, rfl, rfl⟩ := h
      obtain rfl := Option.some.inj ht
      refine ⟨Nat.lt_succ_self _, fun o ho => ?_⟩
      obtain rfl := hnew ho
      exact ⟨rfl, rfl, hoffers.1 hjoin⟩
    · obtain ⟨hlt, ho⟩ := T.output ht
      exact ⟨Nat.lt_succ_of_lt hlt, fun o ho' => ho o (origin?_addToken_of_lt hlt ▸ ho')⟩
  case filed =>
    intro h t ht
    rw [nextToken_addToken]
    rcases filed_addToken ht with ⟨he, rfl⟩ | ht
    · refine ⟨Nat.lt_succ_self _, fun o ho => ?_⟩
      obtain rfl := hnew ho
      exact he
    · obtain ⟨hlt, ho⟩ := T.filed ht
      exact ⟨Nat.lt_succ_of_lt hlt, fun o ho' => ho o (origin?_addToken_of_lt hlt ▸ ho')⟩

theorem Tidy.spares_addToken (T : m.Tidy) {e : Extension} (hoffers : Offers net m n e) :
    Spares net (.of n left e) (fun _ _ => .at n left) m (m.addToken net n left e) := by
  have hdeferred : (m.addToken net n left e).deferred = m.deferred := by
    rw [addToken_eq, sprout]
    exact (m.passOn_eq net n left).2.2.2
  constructor
  case toLater =>
    refine ⟨?_, by rw [hdeferred], fun hlt ho => origin?_addToken_of_lt hlt ▸ ho⟩
    rw [nextToken_addToken]
    exact Nat.le_succ _
  case joins => exact fun ho _ _ _ _ _ _ => (origin?_addToken_of_lt (T.fresh ho)).trans ho
  case born =>
    intro t o n' left' i ho hle hn hp hh _
    rcases origin?_addToken_cases ho with ⟨-, rfl⟩ | ho
    · exact ⟨(Option.some.inj hn).symm, (Option.some.inj hp).symm, hh⟩
    · exact absurd (T.fresh ho) (Nat.not_lt.2 hle)
  case held =>
    intro hd t o n' ho hle hn
    rcases origin?_addToken_cases ho with ⟨-, rfl⟩ | ho
    · obtain rfl := Option.some.inj hn
      exact hoffers.2 hd
    · exact absurd (T.fresh ho) (Nat.not_lt.2 hle)
  case spots =>
    intro n' left' _ _
    by_cases hq : Spots.at n left n' left'
    · exact .inr hq
    · refine .inl ⟨?_, fun t ht => origin?_addToken_of_lt (T.output ht).1⟩
      rw [about_addToken, if_neg fun h => hq h.2]

/-- A node makes a token. -/
theorem grows_addToken (T : m.Tidy) {e : Extension} (hoffers : Offers net m n e) :
    Grows net (.of n left e) (.at n left) m (m.addToken net n left e) :=
  ⟨T.spares_addToken hoffers, T.addToken hoffers,
    fun ho => (origin?_addToken_of_lt (T.fresh ho)).trans ho⟩

end Matching

/-! ## Sprouting -/

/-- A node has made a token for a left token, and all that follows has been made below. -/
structure Sprouted (net : Network) (n : NodeId) (left : TokenId) (e : Extension)
    (m m' : Matching) : Prop where
  grows : Grows net (.of n left e) (.at n left) m m'
  token : m'.origin? m.nextToken = some ⟨some left, some n, net.depthOf n, e⟩
  about : left < m.nextToken → m'.Lives left → m'.about n left =
    if (net.kind? n).any NodeKind.isJoin then m.about n left
    else { m.about n left with output := some m.nextToken }

/-- A node can make tokens with all that follows. -/
def Sprouts (net : Network) (store : WorkingMemory) (n : NodeId) : Prop :=
  ∀ (m : Matching) (left : TokenId) (e : Extension), m.Tidy → m.Offers net n e →
    Sprouted net n left e m (m.emit net store n left e)

/-- All spots of a left token. -/
def Spots.of (left : TokenId) : Spots := fun _ left' => left' = left

/-- All sites of a left token. -/
def Sites.under (left : TokenId) : Sites := fun _ left' _ => left' = left

section
variable {net : Network} {store : WorkingMemory} {m m' : Matching} {n : NodeId} {left : TokenId}

theorem Matching.Offers.congr {e : Extension} (h : m.Offers net n e)
    (hd : m'.deferred.isSome = m.deferred.isSome) : m'.Offers net n e :=
  ⟨h.1, hd ▸ h.2⟩

theorem Matching.Tidy.grows_refl (T : m.Tidy) {J : Sites} {Q : Spots} : Grows net J Q m m :=
  have hw : Writes (fun _ _ => False) m m := .refl
  (hw.grows T id).mono (fun _ => False.elim) fun _ => False.elim

/-- All that a node makes for one left token. -/
theorem Sprouts.each (hS : Sprouts net store n) {es : List Extension} (T : m.Tidy)
    (hes : ∀ e ∈ es, m.Offers net n e) : Grows net (.under left) (.of left) m
      (es.foldl (fun m e => m.emit net store n left e) m) := by
  induction es generalizing m with
  | nil => exact T.grows_refl
  | cons e rest ih =>
    have G := (hS m left e T (hes e List.mem_cons_self)).grows
    have G' := ih G.tidy fun e' he' => (hes e' (List.mem_cons_of_mem e he')).congr G.deferring
    exact (G.mono (fun _ h => h.2.1) fun _ h => h.2).trans G' (fun _ => id) fun _ => id

/-- A token arrives at a node, which makes all that is due for it. -/
theorem Sprouts.activateLeft (hS : Sprouts net store n) (T : m.Tidy) :
    Grows net (.under left) (.of left) m (m.activateLeft net store n left) := by
  obtain ⟨G, hes⟩ := @Matching.grows_arrive net store m n left T
  exact (G.mono (fun _ => False.elim) fun _ h => h.2).trans (hS.each G.tidy hes) (fun _ => id)
    fun _ => id

theorem Sprouts.among {cs : List NodeId} (hS : ∀ c ∈ cs, Sprouts net store c) (T : m.Tidy) :
    Grows net (.under left) (.of left) m
      (cs.foldl (fun m c => m.activateLeft net store c left) m) := by
  induction cs generalizing m with
  | nil => exact T.grows_refl
  | cons c rest ih =>
    have G := @activateLeft net store m c left (hS c List.mem_cons_self) T
    exact G.trans (ih (fun d hd => hS d (List.mem_cons_of_mem c hd)) G.tidy) (fun _ => id) fun _ => id

variable (W : net.WellFormed)
include W

theorem Sprouts.step (hS : ∀ c ∈ net.childrenOf n, Sprouts net store c) :
    Sprouts net store n := by
  intro m left e T hoffers
  have G := @Matching.grows_addToken net m n left T e hoffers
  have G' := @Sprouts.among net store _ m.nextToken _ hS G.tidy
  rw [Matching.emit_eq W]
  refine ⟨G.trans G' (fun hlt h => ?_) (fun hlt h => ?_), G'.persist ?_, fun hlt hlives => ?_⟩
  · exact absurd h (Nat.ne_of_lt hlt)
  · exact absurd h (Nat.ne_of_lt hlt)
  · rw [Matching.origin?_addToken, if_pos rfl]
  · have hlt' : left < (m.addToken net n left e).nextToken := by
      rw [Matching.nextToken_addToken]
      exact Nat.lt_succ_of_lt hlt
    have hsame := (G'.spots (n := n) hlt' hlives).resolve_right (Nat.ne_of_lt hlt)
    rw [hsame.1, Matching.about_addToken]
    cases hjoin : (net.kind? n).any NodeKind.isJoin with
    | true => exact if_neg fun h => absurd h.1 Bool.noConfusion
    | false => exact if_pos ⟨rfl, rfl, rfl⟩

/-- Every node can make tokens, from the last one upwards. -/
theorem Matching.sprouts (store : WorkingMemory) (n : NodeId) : Sprouts net store n := by
  have hchild : ∀ {n c}, c ∈ net.childrenOf n → n < c ∧ c < net.nodes.size := fun hc => by
    obtain ⟨node, hnode, hparent⟩ := W.children.1 hc
    exact ⟨W.lt_of_beneath (Network.beneath_child hnode hparent), Network.lt_size hnode⟩
  have hbound : ∀ k n, net.nodes.size ≤ n + k → Sprouts net store n := by
    intro k
    induction k with
    | zero =>
      intro n hle
      refine Sprouts.step W fun c hc => ?_
      obtain ⟨hlt, hsize⟩ := hchild hc
      exact absurd (Nat.lt_trans hlt hsize) (Nat.not_lt.2 hle)
    | succ k ih =>
      intro n hle
      refine Sprouts.step W fun c hc => ih c (Nat.le_trans hle ?_)
      rw [Nat.add_succ, ← Nat.succ_add]
      exact Nat.add_le_add_right (hchild hc).1 k
  exact hbound net.nodes.size n (Nat.le_add_left _ _)

end

/-! ## Matchings at rest -/

theorem Passes.made_output {made : TokenId → Extension → Prop} {output : Option TokenId}
    {ext : Option Extension} (h : Passes made output ext) {t : TokenId} (ht : output = some t) :
    ∃ e, made t e := by
  cases ext with
  | none =>
    rw [h.1] at ht
    cases ht
  | some e =>
    obtain ⟨t', hout, hmade⟩ := h
    obtain rfl := Option.some.inj (hout.symm.trans ht)
    exact ⟨e, (hmade t' e).2 ⟨rfl, rfl⟩⟩

/-- What a node has noted as passed on it has made. -/
theorem Ledger.Settled.made_output {x : Ledger} {store : WorkingMemory} {members : AlphaId → IdSet}
    {n : NodeId} {left t : TokenId} {μ : Match} {r : LeftRecord}
    {made : TokenId → Extension → Prop} {kind : NodeKind}
    (hs : x.Settled store members n left μ r made kind) (ht : r.output = some t) :
    kind.isJoin = false ∧ ∃ e, made t e := by
  cases kind with
  | join feed =>
    rw [hs.1] at ht
    cases ht
  | absent feed =>
    obtain ⟨facts, output, rfl, -, hp⟩ := hs
    exact ⟨rfl, hp.made_output ht⟩
  | present feed =>
    obtain ⟨facts, output, rfl, -, hp⟩ := hs
    exact ⟨rfl, hp.made_output ht⟩
  | accumulate feed fold having =>
    obtain ⟨acc, output, marked, result, rfl, -, -, hp, -⟩ := hs
    exact ⟨rfl, hp.made_output ht⟩
  | predicate p scope =>
    obtain ⟨output, rfl, hp⟩ := hs
    exact ⟨rfl, hp.made_output ht⟩

/-- Only tokens of joins carry facts. -/
theorem NodeKind.Carries.handle {kind : NodeKind} {e : Extension} (h : kind.Carries e)
    (hjoin : kind.isJoin = false) : e.handle = none := by
  cases kind with
  | join feed => cases hjoin
  | absent feed => rw [show e = .nothing from h]; rfl
  | present feed => rw [show e = .nothing from h]; rfl
  | accumulate feed fold having =>
    obtain ⟨v, rfl⟩ := h
    rfl
  | predicate p scope => rw [show e = .nothing from h]; rfl

theorem Sound.tidy {net : Network} {store : WorkingMemory} {x : Ledger} {m : Matching}
    (S : Sound net store x m) (hidle : ∀ n left, ¬ x.busy n left) : m.Tidy where
  fresh := S.forest.lt_next
  child htoken hc := by
    obtain ⟨o, ho, hp⟩ := S.forest.children.1 ⟨_, htoken, hc⟩
    refine ⟨S.forest.lt_next ho, fun o' ho' => ?_⟩
    obtain rfl := Option.some.inj (ho.symm.trans ho')
    exact hp
  output {n left t} ht := by
    have hl : m.LeftOf net n left := Classical.byContradiction fun hno => by
      rw [S.blank hno] at ht
      cases ht
    obtain ⟨node, hn, hlive⟩ := hl
    obtain ⟨hjoin, e, hmade⟩ := (S.settled hn hlive (hidle n left)).made_output ht
    have hcarries := (S.carries hmade (Network.kind?_eq hn)).handle hjoin
    obtain ⟨depth, hmade⟩ := hmade
    refine ⟨S.forest.lt_next hmade, fun o ho => ?_⟩
    obtain rfl := Option.some.inj (hmade.symm.trans ho)
    exact ⟨rfl, rfl, hcarries⟩
  filed ht := by
    obtain ⟨-, o, ho, hh⟩ := S.filed.1 ht
    refine ⟨S.forest.lt_next ho, fun o' ho' => ?_⟩
    obtain rfl := Option.some.inj (ho.symm.trans ho')
    exact hh

end RuleNet
