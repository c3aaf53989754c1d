/-
  Steps that make and take no tokens.

  * `Writes`: a step that changes nothing but what nodes hold for left tokens.
  * `Writes.sound`: if the nodes are at work for these left tokens, such a step keeps a matching
    sound as soon as the nodes still find their left tokens.
-/
import RuleNet.Proofs.Matching.Moves

namespace RuleNet

/-! ## Tokens that stay the same -/

namespace Matching

variable {net : Network} {m m' : Matching}

theorem origin?_congr (h : m'.tokens = m.tokens) : m'.origin? = m.origin? := by
  funext t
  rw [origin?, origin?, h]

theorem chain_congr (h : m'.tokens = m.tokens) (t : TokenId) : m'.chain t = m.chain t := by
  induction t using Nat.strongRecOn with
  | ind t ih =>
    rw [chain, chain, h]
    cases m.tokens[t]? with
    | none => rfl
    | some token =>
      cases hp : token.parent with
      | none => simp only [hp]
      | some p =>
        simp only [hp]
        split
        · next hlt => rw [ih p hlt]
        · rfl

theorem matchOf_congr (h : m'.tokens = m.tokens) : m'.matchOf = m.matchOf := by
  funext t
  rw [matchOf, matchOf, chain_congr h]

theorem made_congr (h : m'.tokens = m.tokens) : m'.Made = m.Made := by
  funext n left t e
  rw [Made, Made, origin?_congr h]

theorem liveAt_congr (h : m'.tokens = m.tokens) : m'.LiveAt = m.LiveAt := by
  funext t node
  rw [LiveAt, LiveAt, origin?_congr h]

theorem leftOf_congr (h : m'.tokens = m.tokens) : m'.LeftOf = m.LeftOf := by
  funext net n left
  rw [LeftOf, LeftOf, liveAt_congr h]

theorem Forest.congr (F : m.Forest net) (h : m'.tokens = m.tokens)
    (hnext : m'.nextToken = m.nextToken) : m'.Forest net where
  root := by rw [origin?_congr h]; exact F.root
  lt_next := by rw [origin?_congr h, hnext]; exact F.lt_next
  made := by rw [origin?_congr h]; exact F.made
  children := by rw [origin?_congr h, h]; exact F.children
  nodup := by rw [h]; exact F.nodup

end Matching

theorem Chained.congr {net : Network} {x : Ledger} {m m' : Matching} (C : Chained net x m)
    (h : m'.tokens = m.tokens) (hnext : m'.nextToken = m.nextToken)
    (hfiled : m'.tokensByFact = m.tokensByFact) (hevents : m'.events = m.events) :
    Chained net x m' where
  forest := C.forest.congr h hnext
  carries := by rw [Matching.made_congr h]; exact C.carries
  filed := by rw [Matching.origin?_congr h, hfiled]; exact C.filed
  told := by
    rw [hevents]
    have hstands : m'.Stands net = m.Stands net := by
      funext τ t
      rw [Matching.Stands, Matching.Stands, Matching.liveAt_congr h]
    rw [hstands]
    exact C.told

/-! ## Records -/

namespace Matching

theorem node_setNode (m : Matching) (n n' : NodeId) (memory : NodeMemory) :
    (m.setNode n memory).node n' = if n = n' then memory else m.node n' := by
  simp only [node, setNode, Std.ExtTreeMap.getElem?_insert, Nat.compare_eq_eq]
  split <;> rfl

theorem about_setNode (m : Matching) (n n' : NodeId) (memory : NodeMemory) (left : TokenId) :
    (m.setNode n memory).about n' left =
      if n = n' then memory.about left (m.isMarked n left) else m.about n' left := by
  rw [about, node_setNode]
  split
  · next h => subst h; rfl
  · rfl

end Matching

/-- The spot of one node and one left token. -/
def Spots.at (n : NodeId) (left : TokenId) : Spots := fun n' left' => n' = n ∧ left' = left

/-- A step that changes nothing but what nodes hold for left tokens. -/
structure Writes (P : Spots) (m m' : Matching) : Prop where
  tokens : m'.tokens = m.tokens
  nextToken : m'.nextToken = m.nextToken
  tokensByFact : m'.tokensByFact = m.tokensByFact
  events : m'.events = m.events
  alphas : m'.alphas = m.alphas
  memoriesOf : m'.memoriesOf = m.memoriesOf
  deferring : m'.deferred.isSome = m.deferred.isSome
  others : ∀ {n left}, ¬ P n left → m'.about n left = m.about n left

namespace Writes

variable {net : Network} {store : WorkingMemory} {x : Ledger} {P : Spots} {n : NodeId}
  {left : TokenId} {m m' m'' : Matching}

theorem refl : Writes P m m := ⟨rfl, rfl, rfl, rfl, rfl, rfl, rfl, fun _ => rfl⟩

theorem trans (h : Writes P m m') (h' : Writes P m' m'') : Writes P m m'' where
  tokens := h'.tokens.trans h.tokens
  nextToken := h'.nextToken.trans h.nextToken
  tokensByFact := h'.tokensByFact.trans h.tokensByFact
  events := h'.events.trans h.events
  alphas := h'.alphas.trans h.alphas
  memoriesOf := h'.memoriesOf.trans h.memoriesOf
  deferring := h'.deferring.trans h.deferring
  others hne := (h'.others hne).trans (h.others hne)

theorem mono {R : Spots} (h : Writes P m m') (hPR : ∀ {n left}, P n left → R n left) :
    Writes R m m' :=
  { h with others := fun hne => h.others fun hp => hne (hPR hp) }

/-- A node writes its memory. -/
theorem setNode {memory : NodeMemory}
    (h : ∀ left', left' ≠ left → memory.about left' false = (m.node n).about left' false) :
    Writes (.at n left) m (m.setNode n memory) where
  tokens := rfl
  nextToken := rfl
  tokensByFact := rfl
  events := rfl
  alphas := rfl
  memoriesOf := rfl
  deferring := rfl
  others {n' left'} hne := by
    rw [Matching.about_setNode]
    split
    · next heq =>
      subst heq
      have hsame := h left' fun e => hne ⟨rfl, e⟩
      exact congrArg (fun r => { r with marked := m.isMarked n left' }) hsame
    · rfl

/-- A result is marked. -/
theorem mark {dirty : Std.ExtTreeSet (NodeId × TokenId) dictionary} (h : m.deferred = some dirty) :
    Writes (.at n left) m { m with deferred := some (dirty.insert (n, left)) } where
  tokens := rfl
  nextToken := rfl
  tokensByFact := rfl
  events := rfl
  alphas := rfl
  memoriesOf := rfl
  deferring := by rw [h]; rfl
  others {n' left'} hne := by
    have hmarked : (dirty.insert (n, left)).contains (n', left') = dirty.contains (n', left') := by
      rw [Std.ExtTreeSet.contains_insert]
      have hno : ¬ dictionary (n, left) (n', left') = .eq := fun e => by
        have heq := Std.LawfulEqCmp.eq_of_compare e
        rw [Prod.mk.injEq] at heq
        exact hne ⟨heq.1.symm, heq.2.symm⟩
      simp only [beq_eq_false_iff_ne.2 hno, Bool.false_or]
    simp only [Matching.about, Matching.isMarked, h, Option.any_some, hmarked]
    rfl

theorem members (h : Writes P m m') : m'.members = m.members := by
  funext a
  rw [Matching.members, Matching.members, Matching.alpha, Matching.alpha, h.alphas]

theorem moves (h : Writes P m m') (F : m.Forest net) {Q B : Spots}
    (hP : ∀ {n left}, P n left → net.Touches Q n left)
    (hBQ : ∀ {n left}, B n left → Q n left) : Moves net Q B m m' where
  next := Nat.le_of_eq h.nextToken.symm
  survive hlt ho := by rw [Matching.origin?_congr h.tokens] at ho; exact ho
  born hle hmade := by
    rw [Matching.made_congr h.tokens] at hmade
    obtain ⟨depth, ho⟩ := hmade
    exact absurd (F.lt_next ho) (Nat.not_lt.2 hle)
  kept ho _ := by rw [Matching.origin?_congr h.tokens]; exact ho
  record hq _ := h.others fun hp => hq (hP hp)
  alphas := h.alphas
  memoriesOf := h.memoriesOf
  deferring := h.deferring
  sources := hBQ

/-- A node that is at work for a left token may write what it likes about it, as long as it finds
    its left tokens. -/
theorem sound (h : Writes P m m') (S : Sound net store x m)
    (hP : ∀ {n left}, P n left → m.LeftOf net n left ∧ x.busy n left)
    (hnodes : ∀ n', (m'.node n').Filed (x.unlisted n')) : Sound net store x m' where
  toChained := S.toChained.congr h.tokens h.nextToken h.tokensByFact h.events
  blank {n' left'} hno := by
    rw [Matching.leftOf_congr h.tokens] at hno
    rw [h.others fun hp => hno (hP hp).1]
    exact S.blank hno
  nodes := hnodes
  settled {n' node left'} hnode hlive hidle := by
    rw [Matching.liveAt_congr h.tokens] at hlive
    rw [h.members, Matching.matchOf_congr h.tokens, Matching.made_congr h.tokens,
      h.others fun hp => hidle (hP hp).2]
    exact S.settled hnode hlive hidle

/-- The same at one spot. -/
theorem sound_at (h : Writes (.at n left) m m') (S : Sound net store x m)
    (hl : m.LeftOf net n left) (hb : x.busy n left)
    (hnodes : ∀ n', (m'.node n').Filed (x.unlisted n')) : Sound net store x m' :=
  h.sound S (fun hp => by rw [hp.1, hp.2]; exact ⟨hl, hb⟩) hnodes

end Writes

/-- All nodes find their left tokens if the one that was written does. -/
theorem Recorded.nodes_setNode {net : Network} {x : Ledger} {n : NodeId} {m : Matching}
    (R : Recorded net x m) {memory : NodeMemory}
    (hF : ((m.setNode n memory).node n).Filed (x.unlisted n)) (n' : NodeId) :
    ((m.setNode n memory).node n').Filed (x.unlisted n') := by
  by_cases h : n = n'
  · exact h ▸ hF
  · rw [Matching.node_setNode, if_neg h]
    exact R.nodes n'

/-- A node at work for a left token writes its memory. -/
theorem Sound.setNode {net : Network} {store : WorkingMemory} {x : Ledger} {n : NodeId}
    {left : TokenId} {m : Matching} (S : Sound net store x m) (hl : m.LeftOf net n left)
    (hb : x.busy n left) {memory : NodeMemory} (hF : memory.Filed (x.unlisted n))
    (h : ∀ left', left' ≠ left → memory.about left' false = (m.node n).about left' false) :
    Sound net store x (m.setNode n memory) := by
  refine (Writes.setNode h).sound_at S hl hb (S.nodes_setNode ?_)
  rw [Matching.node_setNode, if_pos rfl]
  exact hF

section
variable {net : Network} {store : WorkingMemory} {x : Ledger} {n : NodeId} {left : TokenId}
  {m m' : Matching} (S : Sound net store x m) (hl : m.LeftOf net n left) (hb : x.busy n left)
include S hl hb

/-- Other facts are found for a left token. -/
theorem Sound.putFound (hacc : (m.about n left).accumulator = none) {facts : IdSet}
    {foundBy : Index} (hself : ∀ h, left ∈ foundBy.get h ↔ ¬ x.unlisted n h ∧ h ∈ facts)
    (hother : ∀ left' h, left' ≠ left →
      (left' ∈ foundBy.get h ↔ left' ∈ (m.node n).foundBy.get h))
    (hm' : m.setNode n
      { m.node n with found := (m.node n).found.insert left facts, foundBy } = m') :
    Sound net store x m' ∧ Writes (.at n left) m m' ∧
    m'.about n left = { m.about n left with found := some facts } := by
  have hsame : ∀ left', left' ≠ left →
      ({ m.node n with found := (m.node n).found.insert left facts, foundBy } : NodeMemory).about
        left' false = (m.node n).about left' false := fun left' hne => by
    have hne' : ¬ left = left' := fun e => hne e.symm
    simp [NodeMemory.about, Std.ExtTreeMap.getElem?_insert, hne']
  subst hm'
  refine ⟨S.setNode hl hb ((S.nodes n).putFound hacc hself hother) hsame, .setNode hsame, ?_⟩
  rw [Matching.about_setNode, if_pos rfl]
  simp [NodeMemory.about, Matching.about]

/-- Other facts contribute to the result of a left token. -/
theorem Sound.putAccumulator (hfound : (m.about n left).found = none) {acc : Accumulator}
    {foundBy : Index}
    (hself : ∀ h, left ∈ foundBy.get h ↔ ¬ x.unlisted n h ∧ acc.contains h = true)
    (hother : ∀ left' h, left' ≠ left →
      (left' ∈ foundBy.get h ↔ left' ∈ (m.node n).foundBy.get h))
    (hm' : m.setNode n { m.node n with
      accumulators := (m.node n).accumulators.insert left acc, foundBy } = m') :
    Sound net store x m' ∧ Writes (.at n left) m m' ∧
    m'.about n left = { m.about n left with accumulator := some acc } := by
  have hsame : ∀ left', left' ≠ left →
      ({ m.node n with accumulators := (m.node n).accumulators.insert left acc, foundBy } :
        NodeMemory).about left' false = (m.node n).about left' false := fun left' hne => by
    have hne' : ¬ left = left' := fun e => hne e.symm
    simp [NodeMemory.about, Std.ExtTreeMap.getElem?_insert, hne']
  subst hm'
  refine ⟨S.setNode hl hb ((S.nodes n).putAccumulator hfound hself hother) hsame,
    .setNode hsame, ?_⟩
  rw [Matching.about_setNode, if_pos rfl]
  simp [NodeMemory.about, Matching.about]

/-- A node marks the result of a left token. -/
theorem Sound.mark {dirty : Std.ExtTreeSet (NodeId × TokenId) dictionary}
    (hd : m.deferred = some dirty) :
    Sound net store x { m with deferred := some (dirty.insert (n, left)) } ∧
    ({ m with deferred := some (dirty.insert (n, left)) } : Matching).about n left =
      { m.about n left with marked := true } := by
  refine ⟨(Writes.mark hd).sound_at S hl hb S.nodes, ?_⟩
  have hin : (dirty.insert (n, left)).contains (n, left) = true :=
    Std.ExtTreeSet.contains_insert_self
  simp only [Matching.about, Matching.isMarked, Option.any_some, hin]
  rfl

end

end RuleNet
