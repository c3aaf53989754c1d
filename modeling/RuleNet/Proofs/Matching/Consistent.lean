/-
  What the memories of a matching say about each other.

  Tokens, lists by fact and node memories are kept apart, and each names entries of the others.

  * `Matching.Consistent`: all of them agree, and no entry names what is no longer there.
  * `Matching.Vacant`: what is left without facts.
  * `Kept.consistent`, `Kept.vacant`: when nothing is amiss they agree, and facts that are gone leave
    nothing behind.
-/
import Mathlib.Data.List.Perm.Subperm
import RuleNet.Proofs.Matching.Life

namespace RuleNet

open Matching (Extension)

namespace Matching

/-- One live token was made for another. -/
def Under (m : Matching) (c p : TokenId) : Prop :=
  ∃ token, m.tokens[c]? = some token ∧ token.parent = some p

/-- The memories of a matching agree with each other. -/
structure Consistent (net : Network) (store : WorkingMemory) (m : Matching) : Prop where
  root : ∃ children, m.tokens[rootToken]? = some ⟨none, none, 0, none, none, children⟩
  /-- A token was made by a node, for a live token of the node's parent. -/
  parent : ∀ {t : TokenId} {token : Token}, m.tokens[t]? = some token → t ≠ rootToken →
    ∃ p above n node, token.parent = some p ∧ m.tokens[p]? = some above ∧
      above.children.count t = 1 ∧ token.node = some n ∧ net.node? n = some node ∧
      above.node = node.parent ∧ token.depth = node.depth
  child : ∀ {p c : TokenId} {above : Token}, m.tokens[p]? = some above → c ∈ above.children →
    m.Under c p
  rooted : ∀ {t : TokenId} {token : Token}, m.tokens[t]? = some token →
    Relation.ReflTransGen m.Under t rootToken
  byFact : ∀ {h t}, t ∈ m.tokensByFact.get h ↔
    ∃ token, m.tokens[t]? = some token ∧ token.handle = some h
  /-- The left tokens of a node are those of its parent. -/
  left : ∀ {n t}, t ∈ (m.node n).left ↔
    ∃ node token, net.node? n = some node ∧ m.tokens[t]? = some token ∧ token.node = node.parent
  /-- A left token has a key where the node looks facts up, which is that of its chain. -/
  key : ∀ {n kind t}, net.kind? n = some kind → (m.node n).leftKeys[t]? =
    if t ∈ (m.node n).left then
      kind.index?.map fun index => ((m.view store t).value index.place).indexKey
    else none
  filed : ∀ {n t key}, t ∈ (m.node n).leftIndex.get key ↔
    t ∈ (m.node n).left ∧ ∃ k, (m.node n).leftKeys[t]? = some k ∧ (k == key) = true
  /-- Facts are found for the left tokens of nodes that ask for absence or presence. -/
  found : ∀ {n t}, (∃ facts, (m.node n).found[t]? = some facts) ↔ t ∈ (m.node n).left ∧
    ∃ feed, net.kind? n = some (.absent feed) ∨ net.kind? n = some (.present feed)
  folded : ∀ {n t}, (∃ acc, (m.node n).accumulators[t]? = some acc) ↔ t ∈ (m.node n).left ∧
    ∃ feed fold having, net.kind? n = some (.accumulate feed fold having)
  foundBy : ∀ {n t h}, t ∈ (m.node n).foundBy.get h ↔
    (∃ facts, (m.node n).found[t]? = some facts ∧ h ∈ facts) ∨
      ∃ acc, (m.node n).accumulators[t]? = some acc ∧ acc.contains h = true
  /-- What a node other than a join passed on for a left token is the one token it made for it. -/
  output : ∀ {n t c}, (m.node n).outputs[t]? = some c ↔ t ∈ (m.node n).left ∧
    (∃ token, m.tokens[c]? = some token ∧ token.parent = some t ∧ token.node = some n) ∧
    ∃ kind, net.kind? n = some kind ∧ kind.isJoin = false
  marked : ∀ {n t}, m.isMarked n t = true →
    t ∈ (m.node n).left ∧ ∃ acc, (m.node n).accumulators[t]? = some acc
  /-- The facts that a node holds are in the memory that feeds it. -/
  held : ∀ {n t h}, t ∈ (m.node n).foundBy.get h →
    ∃ kind feed, net.kind? n = some kind ∧ kind.feed? = some feed ∧ h ∈ m.members feed.alpha
  matched : ∀ {t : TokenId} {token : Token} {h}, m.tokens[t]? = some token →
    token.handle = some h →
    ∃ n feed, token.node = some n ∧ net.kind? n = some (.join feed) ∧ h ∈ m.members feed.alpha
  joined : ∀ {t : TokenId} {token : Token} {n feed}, m.tokens[t]? = some token →
    token.node = some n → net.kind? n = some (.join feed) → ∃ h, token.handle = some h
  /-- The memories that a fact is in are known by the fact. -/
  housed : ∀ {a h}, h ∈ m.members a → ∃ alphas, m.memoriesOf[h]? = some alphas ∧ a ∈ alphas
  lookUp : ∀ {n kind feed index h value}, net.kind? n = some kind → kind.feed? = some feed →
    feed.index = some index →
    (h ∈ m.lookUp feed.alpha index.field value ↔ h ∈ m.members feed.alpha ∧
      ((store.valueOf h index.field).indexKey == value.indexKey) = true)

/-- No fact is matched, found or folded anywhere. -/
structure Vacant (net : Network) (m : Matching) : Prop where
  members : ∀ a h, h ∉ m.members a
  byFact : ∀ h t, t ∉ m.tokensByFact.get h
  foundBy : ∀ n h t, t ∉ (m.node n).foundBy.get h
  carries : ∀ {t : TokenId} {token : Token}, m.tokens[t]? = some token → token.handle = none
  /-- Nodes other than joins made the tokens that are left, and none of them made two. -/
  made : ∀ {t : TokenId} {token : Token} {n}, m.tokens[t]? = some token → token.node = some n →
    ∃ kind, net.kind? n = some kind ∧ kind.isJoin = false
  single : ∀ {t t' : TokenId} {token token' : Token}, m.tokens[t]? = some token →
    m.tokens[t']? = some token' → token.node = token'.node → t = t'
  few : m.tokenCount ≤ net.nodes.size + 1

end Matching

section
variable {net : Network} {store : WorkingMemory} {x : Ledger} {m : Matching}

/-! ## Left tokens -/

/-- The record of a left token says in which lists of the node it is. -/
theorem Ledger.Settled.lists {members : AlphaId → IdSet} {n : NodeId} {left : TokenId} {μ : Match}
    {r : LeftRecord} {made : TokenId → Extension → Prop} {kind : NodeKind}
    (hs : x.Settled store members n left μ r made kind) :
    r.arrived = true ∧
    r.key = kind.index?.map (fun index => ((μ.view store).value index.place).indexKey) ∧
    (r.found.isSome = true ↔ ∃ feed, kind = .absent feed ∨ kind = .present feed) ∧
    (r.accumulator.isSome = true ↔ ∃ feed fold having, kind = .accumulate feed fold having) ∧
    (r.marked = true → r.accumulator.isSome = true) := by
  cases kind with
  | join feed =>
    obtain ⟨rfl, -⟩ := hs
    simp [Match.keyFor, NodeKind.index?, NodeKind.feed?]
  | absent feed =>
    obtain ⟨facts, output, rfl, -⟩ := hs
    simp [Match.keyFor, NodeKind.index?, NodeKind.feed?]
  | present feed =>
    obtain ⟨facts, output, rfl, -⟩ := hs
    simp [Match.keyFor, NodeKind.index?, NodeKind.feed?]
  | accumulate feed fold having =>
    obtain ⟨acc, output, marked, result, rfl, -⟩ := hs
    simp [Match.keyFor, NodeKind.index?, NodeKind.feed?]
  | predicate p scope =>
    obtain ⟨output, rfl, -⟩ := hs
    simp [NodeKind.index?, NodeKind.feed?]

theorem Passes.output_iff {made : TokenId → Extension → Prop} {output : Option TokenId}
    {ext : Option Extension} (h : Passes made output ext) {t : TokenId} :
    output = some t ↔ ∃ e, made t e := by
  refine ⟨h.made_output, fun ⟨e, he⟩ => ?_⟩
  cases ext with
  | none => exact absurd he (h.2 t e)
  | some ext =>
    obtain ⟨t', hout, hmade⟩ := h
    rw [hout, ((hmade t e).1 he).1]

/-- A node other than a join has noted what it made. -/
theorem Ledger.Settled.output_of_made {members : AlphaId → IdSet} {n : NodeId} {left t : TokenId}
    {μ : Match} {r : LeftRecord} {made : TokenId → Extension → Prop} {kind : NodeKind}
    (hs : x.Settled store members n left μ r made kind) (hjoin : kind.isJoin = false)
    {e : Extension} (he : made t e) : r.output = some t := by
  cases kind with
  | join feed => cases hjoin
  | absent feed =>
    obtain ⟨facts, output, rfl, -, hp⟩ := hs
    exact hp.output_iff.2 ⟨e, he⟩
  | present feed =>
    obtain ⟨facts, output, rfl, -, hp⟩ := hs
    exact hp.output_iff.2 ⟨e, he⟩
  | accumulate feed fold having =>
    obtain ⟨acc, output, marked, result, rfl, -, -, hp, -⟩ := hs
    exact hp.output_iff.2 ⟨e, he⟩
  | predicate p scope =>
    obtain ⟨output, rfl, hp⟩ := hs
    exact hp.output_iff.2 ⟨e, he⟩

/-- The facts that a node goes by are in its memory. -/
theorem Ledger.Settled.mem_of_lists {members : AlphaId → IdSet} {n : NodeId} {left : TokenId}
    {μ : Match} {r : LeftRecord} {made : TokenId → Extension → Prop} {kind : NodeKind}
    (hs : x.Settled store members n left μ r made kind) (hlate : ∀ i, ¬ x.late n i) {h : Handle}
    (hl : r.Lists h) : ∃ feed, kind.feed? = some feed ∧ h ∈ members feed.alpha := by
  have hgoes : ∀ feed, kind.feed? = some feed → kind.Goes r made h → h ∈ members feed.alpha :=
    fun feed hf hg => (((hs.covers hf h).1 hg).resolve_right fun hl => hlate h hl.1).1
  cases kind with
  | join feed =>
    rw [hs.1] at hl
    exact absurd hl LeftRecord.not_lists
  | absent feed => exact ⟨feed, rfl, hgoes feed rfl hl⟩
  | present feed => exact ⟨feed, rfl, hgoes feed rfl hl⟩
  | accumulate feed fold having => exact ⟨feed, rfl, hgoes feed rfl hl⟩
  | predicate p scope =>
    obtain ⟨output, rfl, -⟩ := hs
    exact absurd hl LeftRecord.not_lists

end

/-! ## Agreement -/

section
variable {net : Network} {store : WorkingMemory} {base : TerminalId → TokenId → Prop}
  {agree : Option Value → Option Value → Prop} {m : Matching}

namespace Sound

/-- A node holds something for its left tokens only. -/
theorem record (S : Sound net store (.rest net base agree) m) (n : NodeId) (t : TokenId) :
    (∃ node, net.node? n = some node ∧ m.LiveAt t node.parent ∧ t ∈ (m.node n).left ∧
      (Ledger.rest net base agree).Settled store m.members n t (m.matchOf t) (m.about n t)
        (m.Made n t) node.kind) ∨
    t ∉ (m.node n).left ∧ m.about n t = .blank := by
  by_cases hleft : m.LeftOf net n t
  · obtain ⟨node, hn, hl⟩ := hleft
    have hs := S.settled hn hl fun hbusy => hbusy
    exact Or.inl ⟨node, hn, hl, Std.ExtTreeSet.contains_iff_mem.1 hs.lists.1, hs⟩
  · have hblank := S.blank hleft
    refine Or.inr ⟨fun hin => ?_, hblank⟩
    have harrived : (m.about n t).arrived = true := Std.ExtTreeSet.contains_iff_mem.2 hin
    rw [hblank] at harrived
    cases harrived

/-- The nodes of a chain, from a token up to the root. -/
theorem rooted (S : Sound net store (.rest net base agree) m) {t : TokenId} {token : Token}
    (htoken : m.tokens[t]? = some token) : Relation.ReflTransGen m.Under t rootToken := by
  refine S.forest.induction (P := fun t _ => Relation.ReflTransGen m.Under t rootToken) .refl
    (fun t p n node o above ho hp hn hnode hlt habove heq hdepth ih => ?_) t token.origin
    (Matching.origin?_of_live htoken)
  obtain ⟨token, htoken, rfl⟩ := Matching.origin?_eq_some.1 ho
  exact .head ⟨token, htoken, hp⟩ ih

/-- Every live token but the root was made by a node, for a live token of the node's parent. -/
theorem parent (S : Sound net store (.rest net base agree) m) {t : TokenId} {token : Token}
    (htoken : m.tokens[t]? = some token) (hne : t ≠ rootToken) :
    ∃ p above n node, token.parent = some p ∧ m.tokens[p]? = some above ∧
      above.children.count t = 1 ∧ token.node = some n ∧ net.node? n = some node ∧
      above.node = node.parent ∧ token.depth = node.depth := by
  have F := S.forest
  have horigin := Matching.origin?_of_live htoken
  obtain ⟨p, n, node, above, hp, hn, hnode, -, habove, heq, hdepth⟩ := F.made horigin hne
  obtain ⟨up, hup, hin⟩ := F.children.2 ⟨_, horigin, hp⟩
  have hsame : up.origin = above :=
    Option.some.inj ((Matching.origin?_of_live hup).symm.trans habove)
  exact ⟨p, up, n, node, hp, hup, List.count_eq_one_of_mem (F.nodup hup) hin, hn, hnode,
    (congrArg Origin.node hsame).trans heq, hdepth⟩

/-- The left tokens of a node are those of its parent. -/
theorem mem_left (S : Sound net store (.rest net base agree) m) {n : NodeId} {t : TokenId} :
    t ∈ (m.node n).left ↔
      ∃ node token, net.node? n = some node ∧ m.tokens[t]? = some token ∧
        token.node = node.parent := by
  constructor
  · intro hin
    obtain ⟨node, hn, ⟨o, ho, hat⟩, -⟩ | ⟨hno, -⟩ := S.record n t
    · obtain ⟨token, htoken, rfl⟩ := Matching.origin?_eq_some.1 ho
      exact ⟨node, token, hn, htoken, hat⟩
    · exact absurd hin hno
  · rintro ⟨node, token, hn, htoken, hat⟩
    have hs := S.settled hn ⟨_, Matching.origin?_of_live htoken, hat⟩ fun hbusy => hbusy
    exact Std.ExtTreeSet.contains_iff_mem.1 hs.lists.1

/-- What a node other than a join passed on for a left token is the token that it made for it. -/
theorem output_iff (S : Sound net store (.rest net base agree) m) {n : NodeId} {t c : TokenId} :
    (m.about n t).output = some c ↔ t ∈ (m.node n).left ∧
      (∃ token, m.tokens[c]? = some token ∧ token.parent = some t ∧ token.node = some n) ∧
      ∃ kind, net.kind? n = some kind ∧ kind.isJoin = false := by
  obtain ⟨node, hn, -, hin, hs⟩ | ⟨hno, hblank⟩ := S.record n t
  · constructor
    · intro ho
      obtain ⟨hjoin, e, depth, hmade⟩ := hs.made_output ho
      obtain ⟨token, htoken, heq⟩ := Matching.origin?_eq_some.1 hmade
      exact ⟨hin, ⟨token, htoken, congrArg Origin.parent heq, congrArg Origin.node heq⟩,
        _, Network.kind?_eq hn, hjoin⟩
    · rintro ⟨-, ⟨token, htoken, hp, hnode⟩, kind, hk, hjoin⟩
      obtain rfl : node.kind = kind := Option.some.inj ((Network.kind?_eq hn).symm.trans hk)
      exact hs.output_of_made hjoin
        (Matching.made_of_origin (Matching.origin?_of_live htoken) hnode hp)
  · simp [hblank, hno, LeftRecord.blank]

/-- The fact of a token was matched by a join, whose memory has it. -/
theorem matched (S : Sound net store (.rest net base agree) m) {t : TokenId} {token : Token}
    {h : Handle} (htoken : m.tokens[t]? = some token) (hh : token.handle = some h) :
    ∃ n feed, token.node = some n ∧ net.kind? n = some (.join feed) ∧
      h ∈ m.members feed.alpha := by
  obtain ⟨n, left, feed, hn, hmade, hk⟩ :=
    S.toChained.made_of_handle (Matching.origin?_of_live htoken) hh
  obtain ⟨node, hnode, hl⟩ := (hmade.leftOf S.forest).2
  have hs := S.settled hnode hl fun hbusy => hbusy
  obtain heq : node.kind = .join feed := Option.some.inj ((Network.kind?_eq hnode).symm.trans hk)
  rw [heq] at hs
  have hc := (hs.2.1 h).1 ⟨t, hmade⟩
  exact ⟨n, feed, hn, hk, (hc.resolve_right fun hl => hl.1).1⟩

/-- The tokens of a join have facts. -/
theorem joined (S : Sound net store (.rest net base agree) m) {t : TokenId} {token : Token}
    {n : NodeId} {feed : Feed} (htoken : m.tokens[t]? = some token) (hn : token.node = some n)
    (hk : net.kind? n = some (.join feed)) : ∃ h, token.handle = some h := by
  have horigin := Matching.origin?_of_live htoken
  obtain ⟨node, hnode⟩ : ∃ node, net.node? n = some node :=
    (Network.kind?_eq_some.1 hk).imp fun _ h => h.1
  obtain ⟨left, e, ⟨depth, hmade⟩, -⟩ := S.forest.made_at hnode ⟨_, horigin, hn⟩
  obtain ⟨h, rfl⟩ : ∃ h, e = .fact h := S.carries ⟨depth, hmade⟩ hk
  have heq := Option.some.inj (horigin.symm.trans hmade)
  exact ⟨h, congrArg (fun o => o.step.handle) heq⟩

end Sound

theorem Kept.consistent (W : net.WellFormed) (k : Kept net store (.rest net base agree) m) :
    m.Consistent net store := by
  have S := k.sound
  have F := S.forest
  constructor
  case root =>
    obtain ⟨⟨parent, node, depth, handle, value, children⟩, htoken, ho⟩ :=
      Matching.origin?_eq_some.1 F.root
    cases ho
    exact ⟨children, htoken⟩
  case parent => exact S.parent
  case child =>
    intro p c above habove hc
    obtain ⟨o, ho, hp⟩ := F.children.1 ⟨above, habove, hc⟩
    obtain ⟨token, htoken, rfl⟩ := Matching.origin?_eq_some.1 ho
    exact ⟨token, htoken, hp⟩
  case rooted => exact S.rooted
  case byFact =>
    intro h t
    rw [S.filed]
    constructor
    · rintro ⟨-, o, ho, hh⟩
      obtain ⟨token, htoken, rfl⟩ := Matching.origin?_eq_some.1 ho
      exact ⟨token, htoken, hh⟩
    · rintro ⟨token, htoken, hh⟩
      exact ⟨id, _, Matching.origin?_of_live htoken, hh⟩
  case left => exact S.mem_left
  case key =>
    intro n kind t hk
    change (m.about n t).key = _
    obtain ⟨node, hn, ⟨o, ho, -⟩, hin, hs⟩ | ⟨hno, hblank⟩ := S.record n t
    · obtain rfl : node.kind = kind := Option.some.inj ((Network.kind?_eq hn).symm.trans hk)
      rw [if_pos hin, Matching.view_eq W F ho, hs.lists.2.1]
    · rw [if_neg hno, hblank]
      rfl
  case filed =>
    intro n t key
    rw [(S.nodes n).keyed]
    refine ⟨fun ⟨k', hk', heq⟩ => ⟨?_, k', hk', heq⟩, fun h => h.2⟩
    obtain ⟨node, hn, -, hin, -⟩ | ⟨-, hblank⟩ := S.record n t
    · exact hin
    · exact nomatch (congrArg LeftRecord.key hblank).symm.trans hk'
  case found =>
    intro n t
    rw [← Option.isSome_iff_exists]
    change (m.about n t).found.isSome = true ↔ _
    obtain ⟨node, hn, -, hin, hs⟩ | ⟨hno, hblank⟩ := S.record n t
    · rw [hs.lists.2.2.1, Network.kind?_eq hn]
      simp [hin]
    · simp [hblank, hno, LeftRecord.blank]
  case folded =>
    intro n t
    rw [← Option.isSome_iff_exists]
    change (m.about n t).accumulator.isSome = true ↔ _
    obtain ⟨node, hn, -, hin, hs⟩ | ⟨hno, hblank⟩ := S.record n t
    · rw [hs.lists.2.2.2.1, Network.kind?_eq hn]
      simp [hin]
    · simp [hblank, hno, LeftRecord.blank]
  case foundBy =>
    intro n t h
    rw [(S.nodes n).listed]
    exact and_iff_right id
  case output => exact S.output_iff
  case marked =>
    intro n t hmark
    change (m.about n t).marked = true at hmark
    obtain ⟨node, hn, -, hin, hs⟩ | ⟨hno, hblank⟩ := S.record n t
    · exact ⟨hin, Option.isSome_iff_exists.1 (hs.lists.2.2.2.2 hmark)⟩
    · rw [hblank] at hmark
      cases hmark
  case held =>
    intro n t h ht
    have hl : (m.about n t).Lists h := ((S.nodes n).listed.1 ht).2
    obtain ⟨node, hn, -, -, hs⟩ | ⟨-, hblank⟩ := S.record n t
    · obtain ⟨feed, hf, hin⟩ := hs.mem_of_lists (fun _ => id) hl
      exact ⟨_, feed, Network.kind?_eq hn, hf, hin⟩
    · rw [hblank] at hl
      exact absurd hl LeftRecord.not_lists
  case matched => exact S.matched
  case joined => exact S.joined
  case housed => exact k.housed.known
  case lookUp =>
    intro n kind feed index h value hk hf hi
    obtain ⟨alpha, ha, hfield⟩ := W.feed hk hf
    rw [Matching.lookUp_eq, k.stocked.found ha (hfield index hi)]

/-! ## Without facts -/

namespace Matching.Consistent

variable (C : m.Consistent net store)
include C

/-- Nodes other than joins make one token for a left token, hence one if there is one above. -/
theorem single (hjoin : ∀ {t : TokenId} {token : Token} {n}, m.tokens[t]? = some token →
      token.node = some n → ∃ kind, net.kind? n = some kind ∧ kind.isJoin = false)
    {t t' : TokenId} {token token' : Token} (ht : m.tokens[t]? = some token)
    (ht' : m.tokens[t']? = some token') (hnode : token.node = token'.node) : t = t' := by
  have hroot : ∀ {t : TokenId} {token : Token}, m.tokens[t]? = some token → token.node = none →
      t = rootToken := fun {t token} ht hn => Decidable.byContradiction fun hne => by
    obtain ⟨p, above, n, node, -, -, -, hn', -⟩ := C.parent ht hne
    exact nomatch hn.symm.trans hn'
  induction C.rooted ht using Relation.ReflTransGen.head_induction_on
    generalizing token t' token' with
  | refl =>
    obtain ⟨children, hr⟩ := C.root
    obtain rfl := Option.some.inj (hr.symm.trans ht)
    exact (hroot ht' hnode.symm).symm
  | @head t p hup _ ih =>
    obtain ⟨token₀, ht₀, hp⟩ := hup
    obtain rfl := Option.some.inj (ht₀.symm.trans ht)
    have hne : t ≠ rootToken := by
      rintro rfl
      obtain ⟨children, hr⟩ := C.root
      obtain rfl := Option.some.inj (hr.symm.trans ht)
      cases hp
    obtain ⟨q, above, n, node, hq, habove, -, hn, hk, heq, -⟩ := C.parent ht hne
    obtain rfl := Option.some.inj (hp.symm.trans hq)
    have hn' := hnode.symm.trans hn
    obtain ⟨q', above', n', node', hq', habove', -, hn'', hk', heq', -⟩ := C.parent ht' (by
      rintro rfl
      obtain ⟨children, hr⟩ := C.root
      obtain rfl := Option.some.inj (hr.symm.trans ht')
      cases hn')
    obtain rfl := Option.some.inj (hn'.symm.trans hn'')
    obtain rfl := Option.some.inj (hk.symm.trans hk')
    -- the tokens above are one by induction, and the node made one token for it
    obtain rfl := ih habove habove' (heq.trans heq'.symm)
    obtain ⟨kind, hkind, hnot⟩ := hjoin ht hn
    have hleft : p ∈ (m.node n).left := C.left.2 ⟨node, above, hk, habove, heq⟩
    have hout := C.output.2 ⟨hleft, ⟨_, ht, hp, hn⟩, kind, hkind, hnot⟩
    have hout' := C.output.2 ⟨hleft, ⟨token', ht', hq', hn''⟩, kind, hkind, hnot⟩
    exact Option.some.inj (hout.symm.trans hout')

/-- Once all facts are gone from the memories, nothing is left of them. -/
theorem vacant (hnone : ∀ a h, h ∉ m.members a) : m.Vacant net := by
  have hcarries : ∀ {t : TokenId} {token : Token}, m.tokens[t]? = some token →
      token.handle = none := fun {t token} ht => Option.eq_none_iff_forall_ne_some.2 fun h hh => by
    obtain ⟨n, feed, -, -, hin⟩ := C.matched ht hh
    exact hnone _ _ hin
  have hmade : ∀ {t : TokenId} {token : Token} {n}, m.tokens[t]? = some token →
      token.node = some n → ∃ kind, net.kind? n = some kind ∧ kind.isJoin = false := by
    intro t token n ht hn
    obtain ⟨children, hr⟩ := C.root
    obtain ⟨p, above, n', node, -, -, -, hn', hnode, -⟩ := C.parent ht (by
      rintro rfl
      obtain rfl := Option.some.inj (hr.symm.trans ht)
      cases hn)
    obtain rfl := Option.some.inj (hn.symm.trans hn')
    refine ⟨node.kind, Network.kind?_eq hnode, ?_⟩
    cases hk : node.kind with
    | join feed =>
      obtain ⟨h, hh⟩ := C.joined ht hn (hk ▸ Network.kind?_eq hnode)
      exact nomatch (hcarries ht).symm.trans hh
    | _ => rfl
  refine ⟨hnone, fun h t ht => ?_, fun n h t ht => ?_, hcarries, hmade, C.single hmade, ?_⟩
  · obtain ⟨token, htoken, hh⟩ := C.byFact.1 ht
    exact nomatch (hcarries htoken).symm.trans hh
  · obtain ⟨kind, feed, -, -, hin⟩ := C.held ht
    exact hnone _ _ hin
  · have hlive : ∀ {t : TokenId} {token : Token}, (t, token) ∈ m.tokens.toList →
        m.tokens[t]? = some token := Std.ExtTreeMap.mem_toList_iff_getElem?_eq_some.1
    have hnodup : (m.tokens.toList.map fun entry => entry.2.node).Nodup :=
      List.pairwise_map.2 (m.tokens.distinct_keys_toList.imp_of_mem fun ha hb hne heq =>
        hne (Nat.compare_eq_eq.2 (C.single hmade (hlive ha) (hlive hb) heq)))
    have hsub : (m.tokens.toList.map fun entry => entry.2.node) ⊆
        none :: (List.range net.nodes.size).map some := by
      intro node hin
      obtain ⟨⟨t, token⟩, ht, rfl⟩ := List.mem_map.1 hin
      cases hn : token.node with
      | none => exact List.mem_cons_self
      | some n =>
        obtain ⟨kind, hk, -⟩ := hmade (hlive ht) hn
        obtain ⟨node, hnode, -⟩ := Network.kind?_eq_some.1 hk
        obtain ⟨hlt, -⟩ := Array.getElem?_eq_some_iff.1 hnode
        exact List.mem_cons_of_mem _ (List.mem_map_of_mem (List.mem_range.2 hlt))
    calc m.tokenCount = (m.tokens.toList.map fun entry => entry.2.node).length := by
          rw [List.length_map, Std.ExtTreeMap.length_toList, tokenCount]
      _ ≤ (none :: (List.range net.nodes.size).map some).length :=
          (List.subperm_of_subset hnodup hsub).length_le
      _ = net.nodes.size + 1 := by simp

end Matching.Consistent

end

end RuleNet
