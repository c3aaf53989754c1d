/-
  What a matching says at rest, and what may be amiss while it is brought up to date.

  * `Ledger.Settled`: a node has done for a left token what its kind asks.
  * `Sound`: every node has done so for all of its left tokens, but for what the ledger allows, and
    the lists that are kept beside tokens and nodes agree with them.
-/
import RuleNet.Matching.Facts
import RuleNet.Proofs.Matching.Record
import RuleNet.Proofs.Matching.Match

namespace RuleNet

open Matching (Extension contribution)

/-! ## What goes with a match -/

namespace Match

/-- Whether a live fact passes the tests of a feed for a match, and has the key that the feed looks
    up. -/
def accepts (store : WorkingMemory) (feed : Feed) (μ : Match) (h : Handle) : Bool :=
  (match store.entry? h with
    | some entry => Test.allHold (μ.view store) entry.fact entry.moment feed.tests
    | none => false) &&
  match feed.index with
    | some index =>
      (store.valueOf h index.field).indexKey == ((μ.view store).value index.place).indexKey
    | none => true

/-- The key under which a feed files a match. -/
def keyFor (store : WorkingMemory) (feed : Feed) (μ : Match) : Option Value :=
  feed.index.map fun index => ((μ.view store).value index.place).indexKey

/-- The result of an accumulator, if it is defined and meets the condition on it. -/
def gated? (store : WorkingMemory) (having : Option (Operator × TestOperand Place)) (μ : Match)
    (acc : Accumulator) : Option Value :=
  acc.result?.filter fun value => match having with
    | some (operator, operand) => operator.apply value (operand.resolve (μ.view store))
    | none => true

end Match

/-- The result that an accumulator passes on depends on the match of its left token only. -/
theorem Matching.gatedResult?_eq {net : Network} {store : WorkingMemory} {m : Matching}
    (W : net.WellFormed) (F : m.Forest net) {left : TokenId} {o : Origin}
    (ho : m.origin? left = some o) {having : Option (Operator × TestOperand Place)}
    {acc : Accumulator} :
    m.gatedResult? store having left acc = (m.matchOf left).gated? store having acc := by
  unfold gatedResult? Match.gated?
  exact view_eq W F ho store ▸ rfl

/-- What the tokens of a node carry. -/
def NodeKind.Carries : NodeKind → Extension → Prop
  | .join _, e => ∃ h, e = .fact h
  | .accumulate _ _ _, e => ∃ v, e = .result v
  | _, e => e = .nothing

/-- The contributions of an accumulator are those of the facts, and it keeps nothing else. -/
structure Accumulator.Folds (acc : Accumulator) (store : WorkingMemory) (fold : Fold) : Prop where
  same_fold : acc.fold = fold
  regular : acc.Regular
  contributions : ∀ {h v}, acc.contributions[h]? = some v → v = contribution store fold h

/-! ## Records -/

namespace Matching

/-- Whether the result of a left token is to be looked at when the update ends. -/
def isMarked (m : Matching) (n : NodeId) (left : TokenId) : Bool :=
  m.deferred.any fun dirty => dirty.contains (n, left)

/-- What a node holds for a left token. -/
def about (m : Matching) (n : NodeId) (left : TokenId) : LeftRecord :=
  (m.node n).about left (m.isMarked n left)

end Matching

/-! ## Nodes and left tokens -/

/-- What may be amiss for the moment, and what is asked beyond the rest. -/
structure Ledger where
  /-- The tokens that stood at terminals when the events were last taken. -/
  base : TerminalId → TokenId → Prop
  /-- Whether a result that stands may be left where another one is due. -/
  agree : Option Value → Option Value → Prop
  /-- A join may have made two tokens for a left token of one fact. -/
  twice : NodeId → TokenId → Handle → Prop
  /-- A node has yet to be told of a fact. -/
  late : NodeId → Handle → Prop
  /-- A node no longer lists where a fact was found. -/
  unlisted : NodeId → Handle → Prop
  /-- The tokens of a fact are no longer filed. -/
  unfiled : Handle → Prop
  /-- A result has yet to be looked at. -/
  stale : NodeId → TokenId → Prop
  /-- A node is just at work for a left token. -/
  busy : NodeId → TokenId → Prop

namespace Ledger

/-- The facts are those of a memory that go with a match, but for facts the node has yet to be told
    of. -/
def Covers (x : Ledger) (n : NodeId) (store : WorkingMemory) (members : IdSet) (μ : Match)
    (feed : Feed) (facts : Handle → Prop) : Prop :=
  ∀ h, (facts h → (h ∈ members ∧ μ.accepts store feed h = true) ∨ (x.late n h ∧ h ∉ members)) ∧
    (h ∈ members → μ.accepts store feed h = true → facts h ∨ x.late n h)

end Ledger

/-- A node other than a join has passed on what it should, once. -/
def Passes (made : TokenId → Extension → Prop) (output : Option TokenId) :
    Option Extension → Prop
  | none => output = none ∧ ∀ t e, ¬ made t e
  | some e => ∃ t, output = some t ∧ ∀ t' e', made t' e' ↔ t' = t ∧ e' = e

/-- A node has done for a left token what its kind asks. -/
def Ledger.Settled (x : Ledger) (store : WorkingMemory) (members : AlphaId → IdSet) (n : NodeId)
    (left : TokenId) (μ : Match) (r : LeftRecord) (made : TokenId → Extension → Prop) :
    NodeKind → Prop
  | .join feed =>
    r = ⟨true, μ.keyFor store feed, none, none, none, false⟩ ∧
    x.Covers n store (members feed.alpha) μ feed (fun h => ∃ t, made t (.fact h)) ∧
    ∀ t t' h, made t (.fact h) → made t' (.fact h) → t = t' ∨ x.twice n left h
  | .absent feed => ∃ facts output,
    r = ⟨true, μ.keyFor store feed, some facts, none, output, false⟩ ∧
    x.Covers n store (members feed.alpha) μ feed (· ∈ facts) ∧
    Passes made output (if facts.isEmpty then some .nothing else none)
  | .present feed => ∃ facts output,
    r = ⟨true, μ.keyFor store feed, some facts, none, output, false⟩ ∧
    x.Covers n store (members feed.alpha) μ feed (· ∈ facts) ∧
    Passes made output (if facts.isEmpty then none else some .nothing)
  | .accumulate feed fold having => ∃ acc output marked result,
    r = ⟨true, μ.keyFor store feed, none, some acc, output, marked⟩ ∧
    x.Covers n store (members feed.alpha) μ feed (fun h => acc.contains h = true) ∧
    acc.Folds store fold ∧
    Passes made output (result.map Extension.result) ∧
    (marked = true ∨ x.stale n left ∨ x.agree result (μ.gated? store having acc))
  | .predicate p scope => ∃ output,
    r = ⟨true, none, none, none, output, false⟩ ∧
    Passes made output (if p.holds (μ.binding store scope) then some .nothing else none)

/-! ## Matchings -/

/-- The members of the alpha memories. -/
def Matching.members (m : Matching) (a : AlphaId) : IdSet := (m.alpha a).facts

/-- Tokens hang together, carry what their nodes pass on and are filed by their facts, and the
    events tell which of them stand at terminals. -/
structure Chained (net : Network) (x : Ledger) (m : Matching) : Prop where
  forest : m.Forest net
  carries : ∀ {n left t e kind}, m.Made n left t e → net.kind? n = some kind → kind.Carries e
  filed : ∀ {t h}, t ∈ m.tokensByFact.get h ↔
    ¬ x.unfiled h ∧ ∃ o, m.origin? t = some o ∧ o.step.handle = some h
  told : Replays x.base (m.Stands net) m.events.toList

/-- Nodes hold nothing but for their left tokens, and find these by their keys and facts. -/
structure Recorded (net : Network) (x : Ledger) (m : Matching) : Prop where
  blank : ∀ {n left}, ¬ m.LeftOf net n left → m.about n left = .blank
  nodes : ∀ n, (m.node n).Filed (x.unlisted n)

/-- A matching is up to date, but for what the ledger allows. -/
structure Sound (net : Network) (store : WorkingMemory) (x : Ledger) (m : Matching) : Prop extends
    Chained net x m, Recorded net x m where
  settled : ∀ {n node left}, net.node? n = some node → m.LiveAt left node.parent →
    ¬ x.busy n left →
    x.Settled store m.members n left (m.matchOf left) (m.about n left) (m.Made n left) node.kind

/-! ## What a node has done -/

/-- A fact goes with a left token, as far as the node knows. -/
def NodeKind.Goes (kind : NodeKind) (r : LeftRecord) (made : TokenId → Extension → Prop)
    (h : Handle) : Prop := match kind with
  | .join _ => ∃ t, made t (.fact h)
  | _ => r.Lists h

namespace Ledger

variable {x : Ledger} {store : WorkingMemory} {members members' : AlphaId → IdSet} {n : NodeId}
  {left : TokenId} {μ : Match} {r : LeftRecord} {made : TokenId → Extension → Prop}
  {kind : NodeKind}

theorem Covers.congr {ids : IdSet} {feed : Feed} {facts facts' : Handle → Prop}
    (hc : x.Covers n store ids μ feed facts) (h : ∀ i, facts i ↔ facts' i) :
    x.Covers n store ids μ feed facts' := fun i =>
  ⟨fun hi => (hc i).1 ((h i).2 hi), fun hi ha => ((hc i).2 hi ha).imp_left (h i).1⟩

/-- Facts that come and go are late. -/
theorem Covers.shift {late : NodeId → Handle → Prop} {ids ids' : IdSet} {feed : Feed}
    {facts : Handle → Prop} (hc : x.Covers n store ids μ feed facts)
    (hle : ∀ i, x.late n i → late n i) (hlose : ∀ i, i ∈ ids → i ∉ ids' → late n i)
    (hgain : ∀ i, i ∈ ids' → i ∉ ids → late n i ∧ ¬ x.late n i) :
    { x with late }.Covers n store ids' μ feed facts := fun i => by
  refine ⟨fun hi => ?_, fun hi ha => ?_⟩
  · by_cases hin : i ∈ ids'
    · rcases (hc i).1 hi with h | ⟨hl, hno⟩
      · exact Or.inl ⟨hin, h.2⟩
      · exact absurd hl (hgain i hin hno).2
    · rcases (hc i).1 hi with h | ⟨hl, -⟩
      · exact Or.inr ⟨hlose i h.1 hin, hin⟩
      · exact Or.inr ⟨hle i hl, hin⟩
  · by_cases hin : i ∈ ids
    · exact ((hc i).2 hin ha).imp_right (hle i)
    · exact Or.inr (hgain i hi hin).1

theorem Covers.of_iff {ids : IdSet} {feed : Feed} {facts : Handle → Prop}
    (h : ∀ i, facts i ↔ i ∈ ids ∧ μ.accepts store feed i = true) :
    x.Covers n store ids μ feed facts := fun i =>
  ⟨fun hi => Or.inl ((h i).1 hi), fun hi ha => Or.inl ((h i).2 ⟨hi, ha⟩)⟩

/-- A settled node has filed its left tokens under their keys. -/
theorem Settled.filed (hs : x.Settled store members n left μ r made kind) {feed : Feed}
    (hf : kind.feed? = some feed) : r.arrived = true ∧ r.key = μ.keyFor store feed := by
  cases kind with
  | join f =>
    cases hf
    rw [hs.1]
    exact ⟨rfl, rfl⟩
  | absent f =>
    cases hf
    obtain ⟨facts, output, rfl, -⟩ := hs
    exact ⟨rfl, rfl⟩
  | present f =>
    cases hf
    obtain ⟨facts, output, rfl, -⟩ := hs
    exact ⟨rfl, rfl⟩
  | accumulate f fold having =>
    cases hf
    obtain ⟨acc, output, marked, result, rfl, -⟩ := hs
    exact ⟨rfl, rfl⟩
  | predicate p scope => cases hf

/-- A settled node knows the facts that go with a left token. -/
theorem Settled.covers (hs : x.Settled store members n left μ r made kind) {feed : Feed}
    (hf : kind.feed? = some feed) :
    x.Covers n store (members feed.alpha) μ feed (kind.Goes r made) := by
  cases kind with
  | join f =>
    cases hf
    exact hs.2.1
  | absent f =>
    cases hf
    obtain ⟨facts, output, rfl, hc, -⟩ := hs
    exact hc.congr fun i => LeftRecord.lists_found.symm
  | present f =>
    cases hf
    obtain ⟨facts, output, rfl, hc, -⟩ := hs
    exact hc.congr fun i => LeftRecord.lists_found.symm
  | accumulate f fold having =>
    cases hf
    obtain ⟨acc, output, marked, result, rfl, hc, -⟩ := hs
    exact hc.congr fun i => LeftRecord.lists_accumulator.symm
  | predicate p scope => cases hf

/-- Only the facts that go with left tokens depend on memories and on what is late. -/
theorem Settled.recover (hs : x.Settled store members n left μ r made kind)
    (late : NodeId → Handle → Prop)
    (hc : ∀ feed, kind.feed? = some feed →
      { x with late }.Covers n store (members' feed.alpha) μ feed (kind.Goes r made)) :
    { x with late }.Settled store members' n left μ r made kind := by
  cases kind with
  | join f => exact ⟨hs.1, hc f rfl, hs.2.2⟩
  | absent f =>
    obtain ⟨facts, output, rfl, -, hp⟩ := hs
    exact ⟨facts, output, rfl, (hc f rfl).congr fun i => LeftRecord.lists_found, hp⟩
  | present f =>
    obtain ⟨facts, output, rfl, -, hp⟩ := hs
    exact ⟨facts, output, rfl, (hc f rfl).congr fun i => LeftRecord.lists_found, hp⟩
  | accumulate f fold having =>
    obtain ⟨acc, output, marked, result, rfl, -, hrest⟩ := hs
    exact ⟨acc, output, marked, result, rfl,
      (hc f rfl).congr fun i => LeftRecord.lists_accumulator, hrest⟩
  | predicate p scope => exact hs

/-- One ledger allows all that another one does, and speaks of the same lists. -/
structure Le (x y : Ledger) : Prop where
  base : y.base = x.base
  unlisted : y.unlisted = x.unlisted
  unfiled : y.unfiled = x.unfiled
  agree : ∀ {a b}, x.agree a b → y.agree a b
  twice : ∀ {n left h}, x.twice n left h → y.twice n left h
  late : ∀ {n h}, x.late n h → y.late n h
  stale : ∀ {n left}, x.stale n left → y.stale n left
  busy : ∀ {n left}, x.busy n left → y.busy n left

theorem Covers.mono {y : Ledger} (hxy : x.Le y) {ids : IdSet} {feed : Feed}
    {facts : Handle → Prop} (hc : x.Covers n store ids μ feed facts) :
    y.Covers n store ids μ feed facts := fun i =>
  ⟨fun hi => ((hc i).1 hi).imp_right fun h => ⟨hxy.late h.1, h.2⟩,
    fun hi ha => ((hc i).2 hi ha).imp_right hxy.late⟩

theorem Settled.mono {y : Ledger} (hxy : x.Le y)
    (hs : x.Settled store members n left μ r made kind) :
    y.Settled store members n left μ r made kind := by
  cases kind with
  | join f =>
    exact ⟨hs.1, hs.2.1.mono hxy, fun t t' h ht ht' => (hs.2.2 t t' h ht ht').imp_right hxy.twice⟩
  | absent f =>
    obtain ⟨facts, output, hr, hc, hp⟩ := hs
    exact ⟨facts, output, hr, hc.mono hxy, hp⟩
  | present f =>
    obtain ⟨facts, output, hr, hc, hp⟩ := hs
    exact ⟨facts, output, hr, hc.mono hxy, hp⟩
  | accumulate f fold having =>
    obtain ⟨acc, output, marked, result, hr, hc, hf, hp, ha⟩ := hs
    exact ⟨acc, output, marked, result, hr, hc.mono hxy, hf, hp,
      ha.imp_right fun h => h.imp hxy.stale hxy.agree⟩
  | predicate p scope => exact hs

/-- Nodes have been told of a fact. -/
def tell (x : Ledger) (P : NodeId → Prop) (h : Handle) : Ledger :=
  { x with late := fun n i => x.late n i ∧ ¬ (P n ∧ i = h) }

theorem Covers.tell {P : NodeId → Prop} {h : Handle} {ids : IdSet} {feed : Feed}
    {facts : Handle → Prop} (hc : x.Covers n store ids μ feed facts)
    (hh : P n → (facts h ↔ h ∈ ids ∧ μ.accepts store feed h = true)) :
    (x.tell P h).Covers n store ids μ feed facts := fun i => by
  by_cases heq : P n ∧ i = h
  · obtain ⟨hn, rfl⟩ := heq
    exact ⟨fun hi => Or.inl ((hh hn).1 hi), fun hi ha => Or.inl ((hh hn).2 ⟨hi, ha⟩)⟩
  · exact ⟨fun hi => ((hc i).1 hi).imp_right fun hl => ⟨⟨hl.1, heq⟩, hl.2⟩,
      fun hi ha => ((hc i).2 hi ha).imp_right fun hl => ⟨hl, heq⟩⟩

/-- The node is at work for the left token. -/
def hold (x : Ledger) (n : NodeId) (left : TokenId) : Ledger :=
  { x with busy := fun n' left' => x.busy n' left' ∨ (n' = n ∧ left' = left) }

theorem le_hold (x : Ledger) (n : NodeId) (left : TokenId) : x.Le (x.hold n left) :=
  ⟨rfl, rfl, rfl, id, id, id, id, Or.inl⟩

end Ledger

/-! ## Ledgers of a matching -/

section
variable {net : Network} {store : WorkingMemory} {x y : Ledger} {m m' : Matching}

/-- Tokens do not depend on what nodes have yet to do. -/
theorem Chained.relabel (C : Chained net x m) (hbase : y.base = x.base)
    (hunfiled : y.unfiled = x.unfiled) : Chained net y m :=
  ⟨C.forest, C.carries, hunfiled ▸ C.filed, hbase ▸ C.told⟩

theorem Sound.mono (S : Sound net store x m) (hxy : x.Le y) : Sound net store y m where
  toChained := S.toChained.relabel hxy.base hxy.unfiled
  blank := S.blank
  nodes := by rw [hxy.unlisted]; exact S.nodes
  settled hn hl hb := (S.settled hn hl fun h => hb (hxy.busy h)).mono hxy

/-- A node that is no longer at work has done what its kind asks. -/
theorem Sound.release (S : Sound net store x m) (busy : NodeId → TokenId → Prop)
    (h : ∀ {n node left}, net.node? n = some node → m.LiveAt left node.parent → x.busy n left →
      ¬ busy n left → x.Settled store m.members n left (m.matchOf left) (m.about n left)
        (m.Made n left) node.kind) :
    Sound net store { x with busy } m where
  toChained := S.toChained.relabel rfl rfl
  blank := S.blank
  nodes := S.nodes
  settled {n node left} hn hl hb := by
    by_cases hx : x.busy n left
    · exact h hn hl hx hb
    · exact S.settled hn hl hx

/-- Nodes have been told of a fact once they know the left tokens that it goes with. -/
theorem Sound.tell {P : NodeId → Prop} {h : Handle} (S : Sound net store x m)
    (hh : ∀ {n node left feed}, P n → net.node? n = some node → m.LiveAt left node.parent →
      ¬ x.busy n left → node.kind.feed? = some feed →
      (node.kind.Goes (m.about n left) (m.Made n left) h ↔
        h ∈ m.members feed.alpha ∧ (m.matchOf left).accepts store feed h = true)) :
    Sound net store (x.tell P h) m where
  toChained := S.toChained.relabel rfl rfl
  blank := S.blank
  nodes := S.nodes
  settled {n node left} hn hl hb := by
    refine (S.settled hn hl hb).recover (x := x) (x.tell P h).late fun feed hf => ?_
    exact ((S.settled hn hl hb).covers hf).tell fun hp => hh hp hn hl hb hf

theorem Sound.release_one (S : Sound net store (x.hold n left) m)
    (h : ∀ {node}, net.node? n = some node → m.LiveAt left node.parent →
      x.Settled store m.members n left (m.matchOf left) (m.about n left) (m.Made n left) node.kind) :
    Sound net store x m := by
  refine S.release x.busy fun {n' node left'} hn hl hb hnot => ?_
  rcases hb with hb | ⟨rfl, rfl⟩
  · exact absurd hb hnot
  · exact (h hn hl).mono (x.le_hold _ _)

end

end RuleNet
