/-
  How a token is made with everything that follows from it.

  * `Emitted`: a node has made a token, and the nodes below know of all that came of it.
  * `Matching.emits`: this is what `Matching.emit` does, by induction over the nodes from the last
    one upwards.
  * `Emits.activateLeft`: a token arrives at a node, which makes what is due for it.
-/
import RuleNet.Proofs.Matching.Arrive
import RuleNet.Proofs.Matching.Grow

namespace RuleNet

open Matching (Extension)

/-- Nothing stands in the way of new tokens below a node. -/
structure Ledger.Calm (x : Ledger) (net : Network) (n : NodeId) : Prop where
  filed : ∀ h, ¬ x.unfiled h
  listed : ∀ {c h}, net.Beneath n c → ¬ x.unlisted c h
  agree : ∀ a, x.agree a a

/-- A node has made a token for a left token, and everything below has followed. -/
structure Emitted (net : Network) (store : WorkingMemory) (x : Ledger) (n : NodeId)
    (left : TokenId) (e : Extension) (m m' : Matching) : Prop where
  sound : Sound net store x m'
  moves : Moves net (.at n left) (.at n left) m m'
  about : m'.about n left = if (net.kind? n).any NodeKind.isJoin then m.about n left
    else { m.about n left with output := some m.nextToken }
  made : ∀ {t e'}, m'.Made n left t e' ↔ m.Made n left t e' ∨ (t = m.nextToken ∧ e' = e)

/-- A node can make any token that its kind carries. -/
structure Emits (net : Network) (store : WorkingMemory) (n : NodeId) : Prop where
  emit : ∀ {x : Ledger} {m : Matching} {node : BetaNode} {left : TokenId} {e : Extension},
    Sound net store x m → Stocked net store m → x.Calm net n → net.node? n = some node →
    m.LiveAt left node.parent → x.busy n left → node.kind.Carries e →
    Emitted net store x n left e m (m.emit net store n left e)

section
variable {net : Network} {store : WorkingMemory} {x : Ledger} {m : Matching} {n : NodeId}
  {node : BetaNode} {left : TokenId} (W : net.WellFormed)
include W

/-! ## Many tokens at one node -/

/-- A left token stays one while its node makes tokens for it. -/
theorem Moves.keeps_at {m' : Matching} (h : Moves net (.at n left) (.at n left) m m')
    (F : m.Forest net) (F' : m'.Forest net) (hn : net.node? n = some node) {left' : TokenId}
    (hl : m.LiveAt left' node.parent) :
    m'.LiveAt left' node.parent ∧ m'.matchOf left' = m.matchOf left' :=
  h.keeps_left W F F' (fun h => h.1) hn hl

/-- A join makes a token for each of some facts. -/
theorem Emits.facts (hE : Emits net store n) {feed : Feed} {facts : List Handle}
    (S : Sound net store x m) (K : Stocked net store m) (hx : x.Calm net n)
    (hn : net.node? n = some node) (hkind : node.kind = .join feed)
    (hl : m.LiveAt left node.parent) (hb : x.busy n left) (hnodup : facts.Nodup)
    (hnew : ∀ h ∈ facts, ∀ t, ¬ m.Made n left t (.fact h))
    (hone : ∀ t t' h, m.Made n left t (.fact h) → m.Made n left t' (.fact h) → t = t')
    {m' : Matching}
    (hm' : (facts.map Extension.fact).foldl (fun m e => m.emit net store n left e) m = m') :
    Sound net store x m' ∧ Moves net (.at n left) (.at n left) m m' ∧
    m'.about n left = m.about n left ∧
    (∀ h, (∃ t, m'.Made n left t (.fact h)) ↔ (∃ t, m.Made n left t (.fact h)) ∨ h ∈ facts) ∧
    ∀ t t' h, m'.Made n left t (.fact h) → m'.Made n left t' (.fact h) → t = t' := by
  induction facts generalizing m with
  | nil =>
    subst hm'
    exact ⟨S, .refl S.forest id, rfl, fun h => by simp, hone⟩
  | cons i rest ih =>
    obtain ⟨hi, hrest⟩ := List.nodup_cons.1 hnodup
    have E := hE.emit S K hx hn hl hb (e := .fact i) (hkind ▸ ⟨i, rfl⟩)
    have habout := E.about
    rw [Network.kind?_eq hn, hkind] at habout
    have hl₁ := (E.moves.keeps_at W S.forest E.sound.forest hn hl).1
    have hnew₁ : ∀ h ∈ rest, ∀ t, ¬ (m.emit net store n left (.fact i)).Made n left t (.fact h) := by
      intro h hh t hmade
      rcases E.made.1 hmade with hmade | ⟨-, he⟩
      · exact hnew h (List.mem_cons_of_mem i hh) t hmade
      · cases he
        exact hi hh
    have hone₁ : ∀ t t' h, (m.emit net store n left (.fact i)).Made n left t (.fact h) →
        (m.emit net store n left (.fact i)).Made n left t' (.fact h) → t = t' := by
      intro t t' h ht ht'
      rcases E.made.1 ht with ht | ⟨rfl, he⟩
      · rcases E.made.1 ht' with ht' | ⟨rfl, he⟩
        · exact hone t t' h ht ht'
        · cases he
          exact absurd ht (hnew i List.mem_cons_self t)
      · cases he
        rcases E.made.1 ht' with ht' | ⟨rfl, -⟩
        · exact absurd ht' (hnew i List.mem_cons_self t')
        · rfl
    obtain ⟨S', M, ha, hmade, hone'⟩ := ih E.sound (K.of_alphas E.moves.alphas) hl₁ hrest hnew₁
      hone₁ hm'
    refine ⟨S', E.moves.trans M, ha.trans habout, fun h => ?_, hone'⟩
    have hfirst : (∃ t, (m.emit net store n left (.fact i)).Made n left t (.fact h)) ↔
        (∃ t, m.Made n left t (.fact h)) ∨ h = i := by
      constructor
      · rintro ⟨t, ht⟩
        rcases E.made.1 ht with ht | ⟨-, he⟩
        · exact Or.inl ⟨t, ht⟩
        · cases he
          exact Or.inr rfl
      · rintro (⟨t, ht⟩ | rfl)
        · exact ⟨t, E.made.2 (Or.inl ht)⟩
        · exact ⟨_, E.made.2 (Or.inr ⟨rfl, rfl⟩)⟩
    rw [hmade, hfirst, List.mem_cons, or_assoc]

/-- A node makes all that is due for a left token that has arrived. -/
theorem Emits.due (hE : Emits net store n) {es : List Extension} (S : Sound net store x m)
    (K : Stocked net store m) (hx : x.Calm net n) (hn : net.node? n = some node)
    (hl : m.LiveAt left node.parent) (hb : x.busy n left)
    (hdue : x.Awaits store m.members n left (m.matchOf left) (m.about n left) es node.kind)
    (hno : ∀ t e, ¬ m.Made n left t e) {m' : Matching}
    (hm' : es.foldl (fun m e => m.emit net store n left e) m = m') :
    Sound net store x m' ∧ Moves net (.at n left) (.at n left) m m' ∧
    x.Settled store m'.members n left (m'.matchOf left) (m'.about n left) (m'.Made n left)
      node.kind := by
  by_cases hjoin : ∃ feed, node.kind = .join feed
  · obtain ⟨feed, hkind⟩ := hjoin
    rw [hkind] at hdue
    obtain ⟨facts, rfl, hnodup, hdue⟩ := hdue
    obtain ⟨S', M, habout, hmade, hone⟩ := hE.facts W S K hx hn hkind hl hb hnodup
      (fun h _ t => hno t _) (fun t t' h ht => absurd ht (hno t _)) hm'
    have hleft := M.keeps_at W S.forest S'.forest hn hl
    refine ⟨S', M, ?_⟩
    rw [hkind, M.members, hleft.2, habout]
    refine hdue _ (fun h => ?_) hone
    rw [hmade, or_iff_right]
    rintro ⟨t, ht⟩
    exact hno t _ ht
  · have hdue' : ∃ e : Option Extension, es = e.toList ∧ (m.about n left).output = none ∧
        (∀ e', e = some e' → node.kind.Carries e') ∧ ∀ output made, Passes made output e →
          x.Settled store m.members n left (m.matchOf left) { m.about n left with output } made
            node.kind := by
      cases hkind : node.kind with
      | join feed => exact absurd ⟨feed, hkind⟩ hjoin
      | absent feed => rw [hkind] at hdue; exact hdue
      | present feed => rw [hkind] at hdue; exact hdue
      | accumulate feed fold having => rw [hkind] at hdue; exact hdue
      | predicate p scope => rw [hkind] at hdue; exact hdue
    have hnot : (net.kind? n).any NodeKind.isJoin = false := by
      rw [Network.kind?_eq hn]
      cases hkind : node.kind with
      | join feed => exact absurd ⟨feed, hkind⟩ hjoin
      | _ => rfl
    obtain ⟨e, rfl, hout, hcarries, hdue⟩ := hdue'
    cases e with
    | none =>
      subst hm'
      have hsame : m.about n left = { m.about n left with output := none } := by rw [← hout]
      refine ⟨S, .refl S.forest id, ?_⟩
      simp only [Option.toList_none, List.foldl_nil]
      rw [hsame]
      exact hdue _ _ ⟨rfl, hno⟩
    | some e =>
      have E := hE.emit S K hx hn hl hb (hcarries e rfl)
      have hleft := E.moves.keeps_at W S.forest E.sound.forest hn hl
      have habout := E.about
      rw [hnot] at habout
      subst hm'
      refine ⟨E.sound, E.moves, ?_⟩
      simp only [Option.toList_some, List.foldl_cons, List.foldl_nil]
      rw [E.moves.members, hleft.2, habout]
      refine hdue _ _ ⟨m.nextToken, rfl, fun t e' => ?_⟩
      rw [E.made, or_iff_right (hno t e')]

/-- A token arrives at a node, which makes all that is due for it. -/
theorem Emits.activateLeft (hE : Emits net store n) (S : Sound net store x m)
    (K : Stocked net store m) (hx : x.Calm net n) (hun : ∀ h, ¬ x.unlisted n h)
    (hn : net.node? n = some node) (hl : m.LiveAt left node.parent) (hb : x.busy n left)
    (hblank : m.about n left = .blank) (hno : ∀ t e, ¬ m.Made n left t e) {m' : Matching}
    (hm' : m.activateLeft net store n left = m') :
    Sound net store x m' ∧ Moves net (.at n left) (.at n left) m m' ∧
    x.Settled store m'.members n left (m'.matchOf left) (m'.about n left) (m'.Made n left)
      node.kind := by
  obtain ⟨hw, S₁, hdue⟩ := S.arrive W K hn hl hb hblank hun hx.agree
  rw [← hw.members, ← Matching.matchOf_congr hw.tokens] at hdue
  rw [← Matching.liveAt_congr hw.tokens] at hl
  rw [← Matching.made_congr hw.tokens] at hno
  obtain ⟨S', M, hs⟩ := hE.due W S₁ (K.of_alphas hw.alphas) hx hn hl hb hdue hno hm'
  exact ⟨S', (hw.moves S.forest Or.inl id).trans M, hs⟩

/-! ## All nodes below -/

/-- The spots of a left token at some nodes. -/
def Spots.among (cs : List NodeId) (left : TokenId) : Spots :=
  fun n' left' => n' ∈ cs ∧ left' = left

/-- What goes on at a node does not touch the other nodes with its parent. -/
theorem Network.WellFormed.apart_sibling {c d : NodeId} {cnode dnode : BetaNode} (hc : net.node? c = some cnode)
    (hd : net.node? d = some dnode) (hparent : cnode.parent = dnode.parent) (hne : c ≠ d)
    (t left : TokenId) : ¬ net.Touches (.at c t) d left := by
  rintro (⟨rfl, -⟩ | ⟨a, l, ⟨rfl, -⟩, hcd⟩)
  · exact hne rfl
  · exact W.not_within_sibling hc hd hparent hne hcd.within

omit W in
/-- The first of the nodes that a token arrives at is done with it. -/
theorem Sound.release_first {t : TokenId} {c : NodeId} {rest : List NodeId}
    (S : Sound net store
      { x with busy := fun n' left => x.busy n' left ∨ (n' ∈ c :: rest ∧ left = t) } m)
    (hnode : net.node? c = some node)
    (hs : x.Settled store m.members c t (m.matchOf t) (m.about c t) (m.Made c t) node.kind) :
    Sound net store { x with busy := fun n' left => x.busy n' left ∨ (n' ∈ rest ∧ left = t) } m := by
  refine S.release (fun n' left => x.busy n' left ∨ (n' ∈ rest ∧ left = t))
    fun {n' node' left} hn' hl hb hnot => ?_
  rw [not_or] at hnot
  rcases hb with hb | ⟨hb, rfl⟩
  · exact absurd hb hnot.1
  · rcases List.mem_cons.1 hb with rfl | hb
    · obtain rfl := Option.some.inj (hnode.symm.trans hn')
      exact hs
    · exact absurd ⟨hb, rfl⟩ hnot.2

/-- A token arrives at nodes with one parent, one after the other. -/
theorem Emits.among {t : TokenId} {parent : Option NodeId} {cs : List NodeId}
    (hE : ∀ c ∈ cs, Emits net store c)
    (hcs : ∀ c ∈ cs, ∃ node, net.node? c = some node ∧ node.parent = parent) (hnodup : cs.Nodup)
    (S : Sound net store
      { x with busy := fun n' left => x.busy n' left ∨ (n' ∈ cs ∧ left = t) } m)
    (K : Stocked net store m) (hx : ∀ c ∈ cs, x.Calm net c ∧ ∀ h, ¬ x.unlisted c h)
    (hlive : m.LiveAt t parent) (hblank : ∀ c ∈ cs, m.about c t = .blank)
    (hno : ∀ c ∈ cs, ∀ t' e, ¬ m.Made c t t' e) {m' : Matching}
    (hm' : cs.foldl (fun m c => m.activateLeft net store c t) m = m') :
    Sound net store x m' ∧ Moves net (.among cs t) (.among cs t) m m' := by
  induction cs generalizing m with
  | nil =>
    subst hm'
    refine ⟨?_, .refl S.forest id⟩
    refine S.release x.busy fun {n' node left} hnode hl hb hnot => ?_
    rcases hb with hb | ⟨hb, -⟩
    · exact absurd hb hnot
    · exact absurd hb List.not_mem_nil
  | cons c rest ih =>
    obtain ⟨hc, hrest⟩ := List.nodup_cons.1 hnodup
    obtain ⟨node, hnode, hparent⟩ := hcs c List.mem_cons_self
    obtain ⟨hcalm, hun⟩ := hx c List.mem_cons_self
    have hlater := fun {d} (hd : d ∈ rest) => List.mem_cons_of_mem c hd
    obtain ⟨S₁, M, hs⟩ := (hE c List.mem_cons_self).activateLeft W S K
      ⟨hcalm.filed, hcalm.listed, hcalm.agree⟩ hun hnode (hparent ▸ hlive)
      (Or.inr ⟨List.mem_cons_self, rfl⟩) (hblank c List.mem_cons_self)
      (hno c List.mem_cons_self) rfl
    have hold : t < m.nextToken := by
      obtain ⟨o, ho, -⟩ := hlive
      exact S.forest.lt_next ho
    have hkept := M.keeps_at W S.forest S₁.forest hnode (hparent ▸ hlive)
    have hapart : ∀ d ∈ rest, ¬ net.Touches (.at c t) d t := by
      intro d hd
      obtain ⟨dnode, hdnode, hdparent⟩ := hcs d (hlater hd)
      exact W.apart_sibling hnode hdnode (hparent.trans hdparent.symm) (fun e => hc (e ▸ hd)) t t
    obtain ⟨S', M'⟩ := ih (fun d hd => hE d (hlater hd)) (fun d hd => hcs d (hlater hd)) hrest
      (S₁.release_first hnode hs)
      (K.of_alphas M.alphas) (fun d hd => hx d (hlater hd)) (hparent ▸ hkept.1)
      (fun d hd => (M.record (hapart d hd) hold).trans (hblank d (hlater hd)))
      (fun d hd t' e hmade => hno d (hlater hd) t' e
        ((M.made_iff (hapart d hd) hold).1 hmade)) hm'
    refine ⟨S', (M.mono ?_ ?_ id).trans (M'.mono ?_ ?_ id)⟩
    · rintro n' left ⟨rfl, rfl⟩
      exact Or.inl ⟨List.mem_cons_self, rfl⟩
    · rintro n' left ⟨rfl, rfl⟩
      exact Or.inl ⟨List.mem_cons_self, rfl⟩
    · exact fun h => Or.inl ⟨hlater h.1, h.2⟩
    · exact fun h => Or.inl ⟨hlater h.1, h.2⟩

theorem Matching.emit_eq (m : Matching) (e : Extension) :
    m.emit net store n left e = (net.childrenOf n).foldl
      (fun m' c => m'.activateLeft net store c m.nextToken) (m.addToken net n left e) := by
  rw [emit, ← W.below_map n, List.foldl_map]
  rfl

/-- Of the nodes that could be waiting for a new token, only the children of its node are. -/
theorem Sound.sprout_among (S : Sound net store x m) (hn : net.node? n = some node)
    (hl : m.LiveAt left node.parent) (hb : x.busy n left) {e : Extension}
    (hc : node.kind.Carries e) (hf : ∀ h, ¬ x.unfiled h) :
    Sound net store
      { x with
        busy := fun n' left' => x.busy n' left' ∨ (n' ∈ net.childrenOf n ∧ left' = m.nextToken) }
      (m.sprout net n left e) := by
  have hp : left < m.nextToken := by
    obtain ⟨o, ho, -⟩ := hl
    exact S.forest.lt_next ho
  refine (S.sprout W hn hl hb hc hf).release (fun n' left' =>
    x.busy n' left' ∨ (n' ∈ net.childrenOf n ∧ left' = m.nextToken))
    fun {n' node' left'} hn' hl' hb' hnot => ?_
  rw [not_or] at hnot
  rcases hb' with hb' | rfl
  · exact absurd hb' hnot.1
  · refine absurd ⟨W.children.2 ⟨node', hn', ?_⟩, rfl⟩ hnot.2
    obtain ⟨o, ho, hnode⟩ := hl'
    rw [Matching.origin?_sprout hp, if_pos rfl] at ho
    cases ho
    exact hnode.symm

/-- A step of a node and steps of its children for a token it has made are a step of the node. -/
theorem Moves.then_among {m₁ m' : Matching} (M : Moves net (.at n left) (.at n left) m m₁)
    {t : TokenId} (M' : Moves net (.among (net.childrenOf n) t) (.among (net.childrenOf n) t) m₁ m')
    (ht : m.nextToken ≤ t) : Moves net (.at n left) (.at n left) m m' := by
  have hM : Moves net (fun n' l => Spots.at n left n' l ∨ Spots.among (net.childrenOf n) t n' l)
      (fun n' l => Spots.at n left n' l ∨ Spots.among (net.childrenOf n) t n' l) m m' := by
    refine (M.mono ?_ ?_ id).trans (M'.mono ?_ ?_ id)
    · exact fun h => Or.inl (Or.inl h)
    · exact fun h => Or.inl (Or.inl h)
    · exact fun h => Or.inl (Or.inr h)
    · exact fun h => Or.inl (Or.inr h)
  refine hM.mono ?_ ?_ id
  · rintro n' l (h | ⟨h, rfl⟩)
    · exact Or.inl h
    · exact Or.inr ⟨n, left, ⟨rfl, rfl⟩, W.beneath_of_mem_childrenOf h⟩
  · rintro n' l (h | ⟨h, rfl⟩)
    · exact Or.inl h
    · exact Or.inr ⟨ht, n, left, ⟨rfl, rfl⟩, W.beneath_of_mem_childrenOf h⟩

/-- A node can make a token if the nodes below can. -/
theorem Emits.step (hE : ∀ c, n < c → Emits net store c) : Emits net store n where
  emit {x m node left e} S K hx hn hl hb hc := by
    obtain ⟨hw, S₀, habout⟩ := S.passOn hn hl hb
    rw [Matching.emit_eq W, Matching.addToken_eq]
    generalize m.passOn net n left = m₀ at hw S₀ habout
    have hl₀ : m₀.LiveAt left node.parent := by rw [Matching.liveAt_congr hw.tokens]; exact hl
    have M₁ : Moves net (.at n left) (.at n left) m₀ (m₀.sprout net n left e) :=
      moves_sprout S₀.forest hl₀ ⟨rfl, rfl⟩ id
    have hp : left < m₀.nextToken := by
      obtain ⟨o, ho, -⟩ := hl₀
      exact S₀.forest.lt_next ho
    rw [← hw.nextToken]
    have hfresh : ∀ c, ¬ m₀.LeftOf net c m₀.nextToken := by
      rintro c ⟨cnode, -, o, ho, -⟩
      exact Nat.lt_irrefl _ (S₀.forest.lt_next ho)
    have hlive : (m₀.sprout net n left e).LiveAt m₀.nextToken (some n) :=
      (Matching.liveAt_sprout S₀.forest hp).2 (Or.inr ⟨rfl, rfl⟩)
    have hbelow := fun c (hc : c ∈ net.childrenOf n) => W.beneath_of_mem_childrenOf hc
    obtain ⟨S', M'⟩ := Emits.among W (x := x) (fun c hc => hE c (W.lt_of_beneath (hbelow c hc)))
      (fun c hc => W.children.1 hc) (W.nodup_children n) (S₀.sprout_among W hn hl₀ hb hc hx.filed)
      ((K.of_alphas hw.alphas).of_alphas M₁.alphas)
      (fun c hc => ⟨⟨hx.filed, fun hd => hx.listed ((hbelow c hc).within.beneath hd), hx.agree⟩,
        fun h => hx.listed (hbelow c hc)⟩) hlive (fun c _ => S₀.blank (hfresh c))
      (fun c _ t' e' hmade => by
        rcases (Matching.made_sprout S₀.forest hp).1 hmade with hmade | ⟨rfl, hleft, -⟩
        · exact hfresh c (hmade.leftOf S₀.forest).2
        · exact Nat.lt_irrefl _ (hleft ▸ hp))
      rfl
    generalize (net.childrenOf n).foldl (fun m' c => m'.activateLeft net store c m₀.nextToken)
      (m₀.sprout net n left e) = m' at S' M' ⊢
    have hapart : ¬ net.Touches (.among (net.childrenOf n) m₀.nextToken) n left := by
      rintro (⟨h, -⟩ | ⟨a, l, ⟨h, -⟩, h'⟩)
      · exact W.not_beneath_self n (hbelow n h)
      · exact W.not_beneath_self n ((hbelow a h).trans_within h'.within)
    have hold : left < (m₀.sprout net n left e).nextToken := Nat.lt_succ_of_lt hp
    constructor
    case sound => exact S'
    case moves =>
      exact ((hw.moves S.forest Or.inl id).trans M₁).then_among W M' (Nat.le_of_eq hw.nextToken.symm)
    case about =>
      rw [M'.record hapart hold, Network.kind?_eq hn]
      exact habout
    case made =>
      intro t e'
      rw [M'.made_iff hapart hold, Matching.made_sprout S₀.forest hp, Matching.made_congr hw.tokens,
        hw.nextToken]
      exact or_congr_right ⟨fun h => h.2.2, fun h => ⟨rfl, rfl, h⟩⟩

/-- Every node makes tokens with everything that follows, from the last node upwards. -/
theorem Matching.emits (store : WorkingMemory) (n : NodeId) : Emits net store n := by
  have hbound : ∀ k n, net.nodes.size ≤ n + k → Emits net store n := by
    intro k
    induction k with
    | zero =>
      intro n hle
      exact ⟨fun _ _ _ hn => absurd (Network.lt_size hn) (Nat.not_lt.2 hle)⟩
    | succ k ih =>
      intro n hle
      refine Emits.step W fun c hc => ih c ?_
      exact Nat.le_trans hle (by rw [Nat.add_succ, ← Nat.succ_add]; exact Nat.add_le_add_right hc k)
  exact hbound net.nodes.size n (Nat.le_add_left _ _)

end

end RuleNet
