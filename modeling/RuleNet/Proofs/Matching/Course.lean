/-
  What becomes of the tokens that a node makes for a left token.

  It depends on the match of the left token, on the facts that go with it before and after, and on what
  the node has made for it so far. It does not depend on what else is in the network.

  * `Fate`: which tokens stay, which come, and whether a result is overdue in the end.
  * `NodeKind.fate`, `Turns.meets`: what becomes of a left token that stays when facts come and go.
  * `Spares.arrives`: what is made for a new one.
  * `NodeKind.review`, `Reviewed.meets`: what becomes of a left token when an update ends.
-/
import RuleNet.Proofs.Matching.Evaluate
import RuleNet.Proofs.Matching.Settling

namespace RuleNet

open Matching (Extension)

/-! ## Fates -/

/-- What becomes of the tokens that a node makes for a left token. -/
structure Fate where
  /-- The tokens that stay. -/
  stays : Extension → Prop
  /-- What new tokens carry. -/
  comes : Extension → Prop
  /-- Whether another result is due in the end. -/
  overdue : Prop

namespace NodeKind

/-- What a node has made for a match is as good as what is due. -/
def OnTime (store : WorkingMemory) (members : AlphaId → IdSet) (μ : Match) (made : Extension → Prop) :
    NodeKind → Prop
  | .accumulate feed fold having => ∃ result : Option Value,
    (∀ e, made e ↔ e ∈ result.toList.map .result) ∧
    (result == μ.folded? store members feed fold having) = true
  | _ => True

/-- What becomes of a left token that stays when facts come and go. -/
def fate (store : WorkingMemory) (members members' : AlphaId → IdSet) (μ : Match) (deferring : Bool)
    (made : Extension → Prop) (overdue : Prop) (kind : NodeKind) : Fate := match kind with
  | .present feed =>
    { stays := fun _ => ∃ h ∈ μ.partners store members feed, h ∈ μ.partners store members' feed
      comes := fun e => e ∈ kind.extensions store members' μ ∧
        ∀ h ∈ μ.partners store members feed, h ∉ μ.partners store members' feed
      overdue := False }
  | .accumulate feed _ _ =>
    { stays := fun _ =>
        μ.partners store members feed = μ.partners store members' feed ∨ deferring = true
      comes := fun e => μ.partners store members feed ≠ μ.partners store members' feed ∧
        deferring = false ∧ e ∈ kind.extensions store members' μ
      overdue := (μ.partners store members feed = μ.partners store members' feed ∧ overdue) ∨
        (μ.partners store members feed ≠ μ.partners store members' feed ∧ deferring = true ∧
          ¬ kind.OnTime store members' μ made) }
  | _ =>
    { stays := fun e => e ∈ kind.extensions store members' μ
      comes := fun e => e ∈ kind.extensions store members' μ ∧ e ∉ kind.extensions store members μ
      overdue := False }

/-- What becomes of a left token when overdue results are made anew. -/
def review (store : WorkingMemory) (members : AlphaId → IdSet) (μ : Match) (overdue : Prop)
    (kind : NodeKind) : Fate where
  stays _ := ¬ overdue
  comes e := overdue ∧ e ∈ kind.extensions store members μ
  overdue := False

end NodeKind

namespace Matching

/-- A result is marked, and another one is due than the one that stands. -/
def Overdue (net : Network) (store : WorkingMemory) (m : Matching) (n : NodeId) (left : TokenId) :
    Prop := (m.about n left).marked = true ∧ ¬ m.OnTime net store n left

/-- A left token meets a fate. -/
structure Meets (net : Network) (store : WorkingMemory) (m m' : Matching) (n : NodeId)
    (left : TokenId) (f : Fate) : Prop where
  old : ∀ {t e}, m.Made n left t e → (m'.Made n left t e ↔ f.stays e)
  new : ∀ {e}, (∃ t, m.nextToken ≤ t ∧ m'.Made n left t e) ↔ f.comes e
  overdue : m'.Overdue net store n left ↔ f.overdue

end Matching

/-! ## What has been made -/

theorem NodeKind.Carries.fact {kind : NodeKind} {e : Extension} (h : kind.Carries e)
    (hjoin : kind.isJoin = true) : ∃ i, e = .fact i := by
  cases kind with
  | join feed => exact h
  | _ => cases hjoin

/-- No node is at work, and none has yet to be told of a fact. -/
structure Ledger.Still (x : Ledger) : Prop where
  idle : ∀ n left, ¬ x.busy n left
  told : ∀ n h, ¬ x.late n h

/-- At rest no node is at work, and none has yet to be told of a fact. -/
theorem Ledger.still_rest {net : Network} {base : TerminalId → TokenId → Prop}
    {agree : Option Value → Option Value → Prop} : (Ledger.rest net base agree).Still :=
  ⟨fun _ _ => id, fun _ _ => id⟩

namespace Ledger.Settled

variable {x : Ledger} {store : WorkingMemory} {members : AlphaId → IdSet} {n : NodeId}
  {left : TokenId} {μ : Match} {r : LeftRecord} {made : TokenId → Extension → Prop}
  {kind : NodeKind}

/-- Only results are marked. -/
theorem unmarked (hs : x.Settled store members n left μ r made kind) (hfolds : kind.folds = false) :
    r.marked = false := by
  cases kind with
  | join feed => rw [hs.1]
  | absent feed =>
    obtain ⟨facts, output, rfl, -⟩ := hs
    rfl
  | present feed =>
    obtain ⟨facts, output, rfl, -⟩ := hs
    rfl
  | accumulate feed fold having => cases hfolds
  | predicate p scope =>
    obtain ⟨output, rfl, -⟩ := hs
    rfl

/-- Nodes that fold nothing have made what they add to the match. -/
theorem made_iff (hs : x.Settled store members n left μ r made kind) (hlate : ∀ i, ¬ x.late n i)
    (hcarries : ∀ {t e}, made t e → kind.Carries e) (hfolds : kind.folds = false) (e : Extension) :
    (∃ t, made t e) ↔ e ∈ kind.extensions store members μ := by
  have hs' := @freshen x (fun _ _ => False) _ _ _ _ _ _ _ _ hs fun feed fold having hk => by
    rw [hk] at hfolds
    cases hfolds
  have hsums : kind.SumsIntegers store members := by
    cases kind with
    | accumulate feed fold having => cases hfolds
    | _ => trivial
  obtain ⟨es, hes, rfl | ⟨feed, fold, having, _, _, rfl, -⟩⟩ :=
    hs'.made_extends hlate id (hs.unmarked hfolds) hsums hcarries
  · exact hes e
  · cases hfolds

/-- What a node other than a join has made is its output. -/
theorem output (hs : x.Settled store members n left μ r made kind) (hjoin : kind.isJoin = false)
    {t : TokenId} {e : Extension} (hmade : made t e) : r.output = some t := by
  have hpasses : ∀ {output ext}, Passes made output ext → output = some t := by
    intro output ext hp
    cases ext with
    | none => exact absurd hmade (hp.2 t e)
    | some ext =>
      obtain ⟨t', hout, ht'⟩ := hp
      rw [hout, ((ht' t e).1 hmade).1]
  cases kind with
  | join feed => cases hjoin
  | absent feed =>
    obtain ⟨facts, output, rfl, -, hp⟩ := hs
    exact hpasses hp
  | present feed =>
    obtain ⟨facts, output, rfl, -, hp⟩ := hs
    exact hpasses hp
  | accumulate feed fold having =>
    obtain ⟨acc, output, marked, result, rfl, -, -, hp, -⟩ := hs
    exact hpasses hp
  | predicate p scope =>
    obtain ⟨output, rfl, hp⟩ := hs
    exact hpasses hp

end Ledger.Settled

section
variable {net : Network} {store : WorkingMemory} {x y : Ledger} {m m' : Matching} {n : NodeId}
  {node : BetaNode} {left : TokenId}

/-- What has been made of a result, and the result that is due. -/
theorem Sound.result (S : Sound net store x m) (hx : x.Still) (hn : net.node? n = some node) (hl : m.LiveAt left node.parent)
    {feed : Feed} {fold : Fold} {having : Option (Operator × TestOperand Place)}
    (hk : node.kind = .accumulate feed fold having)
    (hsums : node.kind.SumsIntegers store m.members) : ∃ acc,
      (m.about n left).accumulator = some acc ∧
      (∀ e, (∃ t, m.Made n left t e) ↔ e ∈ (m.standing? n left).toList.map .result) ∧
      (m.matchOf left).gated? store having acc =
        (m.matchOf left).folded? store m.members feed fold having ∧
      ((m.about n left).marked = true ∨ x.stale n left ∨ x.agree (m.standing? n left)
        ((m.matchOf left).folded? store m.members feed fold having)) := by
  have hs := S.settled hn hl (hx.idle n left)
  rw [hk] at hs hsums
  obtain ⟨acc, output, marked, result, habout, hc, hf, hp, hagree⟩ := hs
  have hgated := hf.gated?_eq (hc.mem_partners (hx.told n)) hsums
  have hstand : m.standing? n left = result :=
    Matching.standing?_eq (by rw [habout]; exact hp)
  refine ⟨acc, by rw [habout], fun e => ?_, hgated, ?_⟩
  · rw [hstand, hp.mem e]
    cases result <;> rfl
  · rw [habout, hstand, ← hgated]
    exact hagree

/-- Whether a result is on time depends on what has been made and on the facts that go with the match. -/
theorem Sound.onTime_iff (S : Sound net store x m) (hx : x.Still) (hn : net.node? n = some node) (hl : m.LiveAt left node.parent)
    (hsums : node.kind.SumsIntegers store m.members) :
    m.OnTime net store n left ↔ node.kind.OnTime store m.members (m.matchOf left)
      fun e => ∃ t, m.Made n left t e := by
  have hkind := Network.kind?_eq hn
  cases hk : node.kind with
  | accumulate feed fold having =>
    obtain ⟨acc, hacc, hmade, hgated, -⟩ := S.result hx hn hl hk hsums
    rw [hk] at hkind
    constructor
    · exact fun h => ⟨_, hmade, hgated ▸ h feed fold having acc hkind hacc⟩
    · rintro ⟨result, hresult, hbeq⟩ feed' fold' having' acc' hk' hacc'
      cases Option.some.inj (hkind.symm.trans hk')
      obtain rfl := Option.some.inj (hacc.symm.trans hacc')
      have hsame : m.standing? n left = result := by
        have hiff : ∀ v, m.standing? n left = some v ↔ result = some v := fun v => by
          have := (hmade (.result v)).symm.trans (hresult (.result v))
          simpa [Extension.result] using this
        cases result with
        | some v => exact (hiff v).2 rfl
        | none => exact Option.eq_none_iff_forall_ne_some.2 fun v hv => by cases (hiff v).1 hv
      rw [hsame, hgated]
      exact hbeq
  | _ =>
    rw [hk] at hkind
    refine iff_of_true (fun feed fold having acc hk' => ?_) trivial
    cases Option.some.inj (hkind.symm.trans hk')

/-- Only results are overdue. -/
theorem Sound.not_overdue (S : Sound net store x m) (hx : x.Still) (hn : net.node? n = some node) (hl : m.LiveAt left node.parent)
    (hfolds : node.kind.folds = false) : ¬ m.Overdue net store n left := by
  rintro ⟨hmark, -⟩
  rw [(S.settled hn hl (hx.idle n left)).unmarked hfolds] at hmark
  cases hmark

/-! ## Tokens that stay -/

theorem Matching.KeepsOutput.made_iff (h : m.KeepsOutput m' n left) (S : Sound net store x m)
    (hx : x.Still) (S' : Sound net store y m') (hy : y.Still) (hn : net.node? n = some node)
    (hl : m.LiveAt left node.parent) (hl' : m'.LiveAt left node.parent)
    (hjoin : node.kind.isJoin = false) {t : TokenId} {e : Extension} :
    m'.Made n left t e ↔ m.Made n left t e := by
  constructor
  · intro hmade
    have hout := (S'.settled hn hl' (hy.idle n left)).output hjoin hmade
    obtain ⟨depth, ho⟩ := hmade
    exact ⟨depth, (h.2 t (h.1.symm.trans hout)).symm.trans ho⟩
  · intro hmade
    have hout := (S.settled hn hl (hx.idle n left)).output hjoin hmade
    obtain ⟨depth, ho⟩ := hmade
    exact ⟨depth, (h.2 t hout).trans ho⟩

theorem Matching.NewOutput.made_new (h : m.NewOutput m' n left) (S' : Sound net store y m')
    (hy : y.Still) (hn : net.node? n = some node) (hl' : m'.LiveAt left node.parent)
    (hjoin : node.kind.isJoin = false) {t : TokenId} {e : Extension} (hmade : m'.Made n left t e) :
    m.nextToken ≤ t :=
  h t ((S'.settled hn hl' (hy.idle n left)).output hjoin hmade)

/-- A left token that stays was there before, with the same match. -/
theorem Later.earlier (h : Later m m') (F : m.Forest net) (F' : m'.Forest net) {p : Option NodeId}
    (hlt : left < m.nextToken) (hl' : m'.LiveAt left p) :
    m.LiveAt left p ∧ m'.Lives left ∧ m'.matchOf left = m.matchOf left := by
  obtain ⟨o, ho, hp⟩ := hl'
  exact ⟨⟨o, h.survive hlt ho, hp⟩, ⟨o, ho⟩, F.matchOf_survive F' h.survive ho hlt⟩

/-- What was made for a left token is older than what is made later. -/
theorem Matching.Made.lt (F : m.Forest net) {t : TokenId} {e : Extension}
    (h : m.Made n left t e) : t < m.nextToken := by
  obtain ⟨depth, ho⟩ := h
  exact F.lt_next ho

theorem Later.made (h : Later m m') {t : TokenId} {e : Extension} (hlt : t < m.nextToken)
    (hmade : m'.Made n left t e) : m.Made n left t e := by
  obtain ⟨depth, ho⟩ := hmade
  exact ⟨depth, h.survive hlt ho⟩

namespace Matching.Meets

variable {f : Fate}

/-- A node whose tokens stay as long as it adds what they carry. -/
theorem of_extensions (F : m.Forest net) (hlater : Later m m') {es es' : List Extension}
    (hes : ∀ e, (∃ t, m.Made n left t e) ↔ e ∈ es)
    (hes' : ∀ e, (∃ t, m'.Made n left t e) ↔ e ∈ es')
    (hkeep : ∀ {t e}, e ∈ es → e ∈ es' → (m'.Made n left t e ↔ m.Made n left t e))
    (hover : ¬ m'.Overdue net store n left) :
    m.Meets net store m' n left ⟨(· ∈ es'), fun e => e ∈ es' ∧ e ∉ es, False⟩ where
  old {t e} hmade :=
    ⟨fun h => (hes' e).1 ⟨t, h⟩, fun hin => (hkeep ((hes e).1 ⟨t, hmade⟩) hin).2 hmade⟩
  new {e} := by
    constructor
    · rintro ⟨t, hle, hmade⟩
      have hin := (hes' e).1 ⟨t, hmade⟩
      exact ⟨hin, fun hold => Nat.not_lt.2 hle (((hkeep hold hin).1 hmade).lt F)⟩
    · rintro ⟨hin, hno⟩
      obtain ⟨t, hmade⟩ := (hes' e).2 hin
      refine ⟨t, Nat.not_lt.1 fun hlt => hno ((hes e).1 ⟨t, hlater.made hlt hmade⟩), hmade⟩
  overdue := iff_of_false hover id

/-- All tokens stay, and none comes. -/
theorem of_kept (F : m.Forest net) (hkeep : ∀ {t e}, m'.Made n left t e ↔ m.Made n left t e)
    (hstays : ∀ {t e}, m.Made n left t e → f.stays e) (hcomes : ∀ e, ¬ f.comes e)
    (hover : m'.Overdue net store n left ↔ f.overdue) : m.Meets net store m' n left f where
  old hmade := iff_of_true (hkeep.2 hmade) (hstays hmade)
  new {e} := by
    refine iff_of_false ?_ (hcomes e)
    rintro ⟨t, hle, hmade⟩
    exact Nat.not_lt.2 hle ((hkeep.1 hmade).lt F)
  overdue := hover

/-- No token stays. -/
theorem of_renewed (hnew : ∀ {t e}, m'.Made n left t e → m.nextToken ≤ t)
    (hstays : ∀ {t e}, m.Made n left t e → t < m.nextToken ∧ ¬ f.stays e)
    (hcomes : ∀ e, (∃ t, m'.Made n left t e) ↔ f.comes e)
    (hover : m'.Overdue net store n left ↔ f.overdue) : m.Meets net store m' n left f where
  old hmade := iff_of_false (fun h => Nat.not_lt.2 (hnew h) (hstays hmade).1) (hstays hmade).2
  new {e} := by
    rw [← hcomes]
    exact ⟨fun ⟨t, _, hmade⟩ => ⟨t, hmade⟩, fun ⟨t, hmade⟩ => ⟨t, hnew hmade, hmade⟩⟩
  overdue := hover

end Matching.Meets

/-! ## Results -/

/-- Where no update goes on nothing is marked. -/
theorem Matching.not_marked (hd : m.deferred.isSome = false) : (m.about n left).marked = false := by
  rw [Option.isSome_eq_false_iff, Option.isNone_iff_eq_none] at hd
  show m.deferred.any _ = false
  rw [hd]
  rfl

theorem Matching.not_overdue (hd : m.deferred.isSome = false) : ¬ m.Overdue net store n left :=
  fun h => Bool.false_ne_true ((not_marked hd).symm.trans h.1)

/-- A result that was exact when it was made is exact as long as its left token stays. -/
theorem Matching.Exact.standing (W : net.WellFormed) (F : m.Forest net)
    {having : Option (Operator × TestOperand Place)} (h : m.Exact store having n left)
    (hl : m.Lives left) {acc : Accumulator} (hacc : (m.about n left).accumulator = some acc) :
    m.standing? n left = (m.matchOf left).gated? store having acc := by
  obtain ⟨c, acc', hlater, hlt, hacc', hstand⟩ := h
  obtain rfl := Option.some.inj (hacc.symm.trans hacc')
  obtain ⟨o, ho⟩ := hl
  rw [hstand, ← Matching.gatedResult?_eq W F ho, gatedResult?, gatedResult?,
    view_congr (F.chain_survive hlater.survive ho hlt) store]

/-! ## When facts come and go -/

/-- The facts that a node knows to go with a left token. -/
theorem Sound.knows_iff (S : Sound net store x m) (hx : x.Still) (hn : net.node? n = some node)
    (hl : m.LiveAt left node.parent) {feed : Feed} (hf : node.kind.feed? = some feed)
    (hjoin : node.kind.isJoin = false) (i : Handle) : node.kind.Knows (m.about n left) i ↔
      i ∈ (m.matchOf left).partners store m.members feed :=
  ((S.settled hn hl (hx.idle n left)).covers_knows hf hjoin).mem_partners (hx.told n) i

/-- A node stays as it is, or other facts go with a left token and it turns. -/
theorem Turns.cases (D : Turns net store m m') (S : Sound net store x m) (hx : x.Still)
    (S' : Sound net store y m') (hy : y.Still) (hn : net.node? n = some node)
    (hlt : left < m.nextToken) (hl' : m'.LiveAt left node.parent) {feed : Feed}
    (hf : node.kind.feed? = some feed) (hjoin : node.kind.isJoin = false) :
    ((m.matchOf left).partners store m.members feed =
        (m.matchOf left).partners store m'.members feed ∧ m.Unmoved m' n left) ∨
    ((m.matchOf left).partners store m.members feed ≠
        (m.matchOf left).partners store m'.members feed ∧ node.kind.Turned store m m' n left) := by
  obtain ⟨hl, hlives, hmatch⟩ := D.toLater.earlier S.forest S'.forest hlt hl'
  have hknows := S.knows_iff hx hn hl hf hjoin
  have hknows' := S'.knows_iff hy hn hl' hf hjoin
  rw [hmatch] at hknows'
  rcases D.spots hlt hlives with hu | ⟨kind, hk, ⟨i, hi⟩, hturn⟩
  · exact .inl ⟨Match.partners_eq fun i => by rw [← hknows, ← hknows', hu.1], hu⟩
  · obtain rfl := Option.some.inj ((Network.kind?_eq hn).symm.trans hk)
    refine .inr ⟨fun heq => hi ?_, hturn⟩
    rw [hknows, hknows', heq]

/-- A left token that stays at a node that folds facts. -/
theorem Turns.meets_folded (W : net.WellFormed) (D : Turns net store m m') (S : Sound net store x m)
    (hx : x.Still) (S' : Sound net store y m') (hy : y.Still) (hn : net.node? n = some node)
    (hlt : left < m.nextToken) (hl' : m'.LiveAt left node.parent) {feed : Feed} {fold : Fold}
    {having : Option (Operator × TestOperand Place)} (hk : node.kind = .accumulate feed fold having)
    (hsums' : node.kind.SumsIntegers store m'.members) :
    m.Meets net store m' n left (node.kind.fate store m.members m'.members (m.matchOf left)
      m.deferred.isSome (fun e => ∃ t, m.Made n left t e) (m.Overdue net store n left)) := by
  obtain ⟨hl, hlives, hmatch⟩ := D.toLater.earlier S.forest S'.forest hlt hl'
  have hjoin : node.kind.isJoin = false := by rw [hk]; rfl
  have hkeep := fun (h : m.KeepsOutput m' n left) {t e} =>
    h.made_iff S hx S' hy hn hl hl' hjoin (t := t) (e := e)
  have htime := S'.onTime_iff hy hn hl' hsums'
  obtain ⟨acc, hacc, hmade, hgated, -⟩ := S'.result hy hn hl' hk hsums'
  rcases D.cases S hx S' hy hn hlt hl' (by rw [hk]; rfl) hjoin with
    ⟨heq, hu⟩ | ⟨hne, hturn⟩
  · rw [hk]
    refine .of_kept S.forest (hkeep hu.keeps) (fun _ => .inl heq) (fun _ h => h.1 heq) ?_
    have hsame : m'.Overdue net store n left ↔ m.Overdue net store n left := by
      rw [Matching.Overdue, Matching.Overdue, hu.onTime_iff hmatch, hu.1]
    exact hsame.trans ⟨fun h => .inl ⟨heq, h⟩, fun h => h.elim And.right fun h => absurd heq h.1⟩
  · cases hd : m.deferred.isSome with
    | true =>
      rw [hk] at hturn htime ⊢
      obtain ⟨houtput, hmark⟩ := hturn.1 hd
      refine .of_kept S.forest (hkeep houtput) (fun _ => .inr rfl) (fun _ h => nomatch h.2.1) ?_
      have hlate : m'.Overdue net store n left ↔
          ¬ (NodeKind.accumulate feed fold having).OnTime store m'.members (m.matchOf left)
            fun e => ∃ t, m.Made n left t e := by
        rw [Matching.Overdue, htime, hmatch, and_iff_right hmark]
        simp only [hkeep houtput]
      exact hlate.trans ⟨fun h => .inr ⟨hne, rfl, h⟩,
        fun h => h.elim (fun h => absurd h.1 hne) fun h => h.2.2⟩
    | false =>
      rw [hk] at hturn ⊢
      obtain ⟨hnew, hexact⟩ := hturn.2 hd
      refine .of_renewed (fun h => hnew.made_new S' hy hn hl' hjoin h)
        (fun h => ⟨h.lt S.forest, fun h => h.elim hne nofun⟩) (fun e => ?_)
        (iff_of_false (Matching.not_overdue (D.deferring.trans hd)) ?_)
      · rw [hmade, hexact.standing W S'.forest hlives hacc, hgated, hmatch]
        exact ⟨fun h => ⟨hne, rfl, h⟩, fun h => h.2.2⟩
      · exact fun h => h.elim (fun h => hne h.1) fun h => nomatch h.2.1

/-- A node that folds no facts makes its extensions. -/
theorem Sound.made_iff (S : Sound net store x m) (hx : x.Still) (hn : net.node? n = some node)
    (hl : m.LiveAt left node.parent) (hfolds : node.kind.folds = false) (e : Extension) :
    (∃ t, m.Made n left t e) ↔ e ∈ node.kind.extensions store m.members (m.matchOf left) :=
  (S.settled hn hl (hx.idle n left)).made_iff (hx.told n)
    (fun hmade => S.carries hmade (Network.kind?_eq hn)) hfolds e

section
variable (W : net.WellFormed) (D : Turns net store m m') (S : Sound net store x m) (hx : x.Still)
  (S' : Sound net store y m') (hy : y.Still) (hn : net.node? n = some node)
  (hlt : left < m.nextToken) (hl' : m'.LiveAt left node.parent)
include D S hx S' hy hn hlt hl'

/-- A left token at a node that leaves alone what it made and would make again. -/
theorem Turns.meets_extensions (hfolds : node.kind.folds = false)
    (hkeep : ∀ {t e}, e ∈ node.kind.extensions store m.members (m.matchOf left) →
      e ∈ node.kind.extensions store m'.members (m.matchOf left) →
      (m'.Made n left t e ↔ m.Made n left t e)) :
    m.Meets net store m' n left
      ⟨(· ∈ node.kind.extensions store m'.members (m.matchOf left)),
        fun e => e ∈ node.kind.extensions store m'.members (m.matchOf left) ∧
          e ∉ node.kind.extensions store m.members (m.matchOf left), False⟩ := by
  obtain ⟨hl, -, hmatch⟩ := D.toLater.earlier S.forest S'.forest hlt hl'
  have hexts' := S'.made_iff hy hn hl' hfolds
  rw [hmatch] at hexts'
  exact .of_extensions S.forest D.toLater (S.made_iff hx hn hl hfolds) hexts' hkeep
    (S'.not_overdue hy hn hl' hfolds)

theorem Turns.meets_join {feed : Feed} (hk : node.kind = .join feed) :
    m.Meets net store m' n left (node.kind.fate store m.members m'.members (m.matchOf left)
      m.deferred.isSome (fun e => ∃ t, m.Made n left t e) (m.Overdue net store n left)) := by
  have hlives := (D.toLater.earlier S.forest S'.forest hlt hl').2.1
  have hkind : net.kind? n = some (.join feed) := hk ▸ Network.kind?_eq hn
  have hmeets := D.meets_extensions S hx S' hy hn hlt hl' (by rw [hk]; rfl)
  rw [hk] at hmeets ⊢
  refine hmeets fun {t e} he he' => ?_
  obtain ⟨i, hi, rfl⟩ := List.mem_map.1 he
  obtain ⟨i', hi', heq⟩ := List.mem_map.1 he'
  cases heq
  have hstays : ¬ m.Passing net m' n left i := fun hpass =>
    hpass feed hkind ⟨(Match.mem_partners.1 hi).1, (Match.mem_partners.1 hi').1⟩
  constructor
  · rintro ⟨depth, ho⟩
    by_cases hold : t < m.nextToken
    · exact ⟨depth, D.survive hold ho⟩
    · exact absurd (D.born ho (Nat.not_lt.1 hold) rfl rfl rfl hlt) hstays
  · rintro ⟨depth, ho⟩
    exact ⟨depth, D.joins ho rfl rfl rfl hstays hlt hlives⟩

theorem Turns.meets_absent {feed : Feed} (hk : node.kind = .absent feed) :
    m.Meets net store m' n left (node.kind.fate store m.members m'.members (m.matchOf left)
      m.deferred.isSome (fun e => ∃ t, m.Made n left t e) (m.Overdue net store n left)) := by
  have hl := (D.toLater.earlier S.forest S'.forest hlt hl').1
  have hjoin : node.kind.isJoin = false := by rw [hk]; rfl
  have hf : node.kind.feed? = some feed := by rw [hk]; rfl
  have hcases := D.cases S hx S' hy hn hlt hl' hf hjoin
  have hmeets := D.meets_extensions S hx S' hy hn hlt hl' (by rw [hk]; rfl)
  rw [hk] at hmeets ⊢
  refine hmeets fun {t e} he he' => ?_
  rw [NodeKind.extensions] at he he'
  rcases hcases with ⟨-, hu⟩ | ⟨hne, -⟩
  · exact hu.keeps.made_iff S hx S' hy hn hl hl' hjoin
  · split at he
    · next hnone =>
      split at he'
      · next hnone' =>
        rw [List.isEmpty_iff] at hnone hnone'
        exact absurd (hnone.trans hnone'.symm) hne
      · cases he'
    · cases he

theorem Turns.meets_predicate {p : Predicate} {scope : List (String × Place)}
    (hk : node.kind = .predicate p scope) :
    m.Meets net store m' n left (node.kind.fate store m.members m'.members (m.matchOf left)
      m.deferred.isSome (fun e => ∃ t, m.Made n left t e) (m.Overdue net store n left)) := by
  obtain ⟨hl, hlives, -⟩ := D.toLater.earlier S.forest S'.forest hlt hl'
  have hkind : net.kind? n = some (.predicate p scope) := hk ▸ Network.kind?_eq hn
  have hjoin : node.kind.isJoin = false := by rw [hk]; rfl
  have hmeets := D.meets_extensions S hx S' hy hn hlt hl' (by rw [hk]; rfl)
  rw [hk] at hmeets ⊢
  refine hmeets fun {t e} he he' => ?_
  rcases D.spots hlt hlives with hu | ⟨kind, hk', -, hturn⟩
  · exact hu.keeps.made_iff S hx S' hy hn hl hl' hjoin
  · cases hkind.symm.trans hk'
    exact hturn.elim

/-- What was made for presence stays as long as a fact does that went with the left token. -/
theorem Turns.meets_present {feed : Feed} (hk : node.kind = .present feed) :
    m.Meets net store m' n left (node.kind.fate store m.members m'.members (m.matchOf left)
      m.deferred.isSome (fun e => ∃ t, m.Made n left t e) (m.Overdue net store n left)) := by
  obtain ⟨hl, -, hmatch⟩ := D.toLater.earlier S.forest S'.forest hlt hl'
  have hf : node.kind.feed? = some feed := by rw [hk]; rfl
  have hjoin : node.kind.isJoin = false := by rw [hk]; rfl
  have hfolds : node.kind.folds = false := by rw [hk]; rfl
  have hknows := S.knows_iff hx hn hl hf hjoin
  have hknows' := S'.knows_iff hy hn hl' hf hjoin
  have hexts := S.made_iff hx hn hl hfolds
  have hexts' := S'.made_iff hy hn hl' hfolds
  have hcases := D.cases S hx S' hy hn hlt hl' hf hjoin
  have hkeep := fun (h : m.KeepsOutput m' n left) {t e} =>
    h.made_iff S hx S' hy hn hl hl' hjoin (t := t) (e := e)
  have hover := iff_of_false (S'.not_overdue hy hn hl' hfolds) id
  rw [hmatch] at hknows' hexts'
  rw [hk] at hexts hexts' hcases hknows hknows' ⊢
  have hsome : ∀ {members e}, e ∈ (NodeKind.present feed).extensions store members (m.matchOf left) →
      ∃ h, h ∈ (m.matchOf left).partners store members feed := fun {members e} he => by
    rw [NodeKind.extensions] at he
    split at he
    · cases he
    · next hne => exact List.exists_mem_of_ne_nil _ fun h => hne (List.isEmpty_iff.2 h)
  rcases hcases with ⟨heq, hu⟩ | ⟨hne, hturn⟩
  · refine .of_kept S.forest (hkeep hu.keeps) (fun {t e} hmade => ?_) (fun e he => ?_) hover
    · obtain ⟨i, hi⟩ := hsome ((hexts e).1 ⟨t, hmade⟩)
      exact ⟨i, hi, heq ▸ hi⟩
    · obtain ⟨i, hi⟩ := hsome he.1
      exact he.2 i (heq ▸ hi) hi
  · by_cases hshare : ∃ h ∈ (m.matchOf left).partners store m.members feed,
      h ∈ (m.matchOf left).partners store m'.members feed
    · obtain ⟨i, hi, hi'⟩ := hshare
      exact .of_kept S.forest (hkeep (hturn.1 i ((hknows i).2 hi) ((hknows' i).2 hi')))
        (fun _ => ⟨i, hi, hi'⟩) (fun e he => he.2 i hi hi') hover
    · have hnew := hturn.2 fun i hi hi' => hshare ⟨i, (hknows i).1 hi, (hknows' i).1 hi'⟩
      refine .of_renewed (fun h => hnew.made_new S' hy hn hl' hjoin h)
        (fun h => ⟨h.lt S.forest, hshare⟩) (fun e => ?_) hover
      rw [hexts']
      exact ⟨fun he => ⟨he, fun i hi hi' => hshare ⟨i, hi, hi'⟩⟩, And.left⟩

include W in
/-- A left token that stays meets its fate when facts come and go. -/
theorem Turns.meets (hsums' : node.kind.SumsIntegers store m'.members) :
    m.Meets net store m' n left (node.kind.fate store m.members m'.members (m.matchOf left)
      m.deferred.isSome (fun e => ∃ t, m.Made n left t e) (m.Overdue net store n left)) := by
  cases hk : node.kind with
  | join feed => exact hk ▸ D.meets_join S hx S' hy hn hlt hl' hk
  | absent feed => exact hk ▸ D.meets_absent S hx S' hy hn hlt hl' hk
  | predicate p scope => exact hk ▸ D.meets_predicate S hx S' hy hn hlt hl' hk
  | present feed => exact hk ▸ D.meets_present S hx S' hy hn hlt hl' hk
  | accumulate feed fold having => exact hk ▸ D.meets_folded W S hx S' hy hn hlt hl' hk hsums'

end

/-! ## New left tokens -/

/-- Results are exact, but those of left tokens that were there before may be left out of account. -/
def Ledger.since (x : Ledger) (m : Matching) : Ledger :=
  { x with agree := Eq, stale := fun _ left => left < m.nextToken }

theorem Ledger.Quiet.since (hx : x.Quiet) (m : Matching) : (x.since m).Quiet :=
  ⟨hx.filed, hx.listed, hx.idle, fun _ => rfl⟩

theorem Kept.since (k : Kept net store x m) : Kept net store (x.since m) m where
  sound :=
    { toChained := k.sound.toChained.relabel rfl rfl
      blank := k.sound.blank
      nodes := k.sound.nodes
      settled := fun {n node left} hn hl hb => by
        have hs := k.sound.settled hn hl hb
        have hlt : left < m.nextToken := by
          obtain ⟨o, ho, -⟩ := hl
          exact k.sound.forest.lt_next ho
        cases hk : node.kind with
        | accumulate feed fold having =>
          rw [hk] at hs
          obtain ⟨acc, output, marked, result, hr, hc, hf, hp, -⟩ := hs
          exact ⟨acc, output, marked, result, hr, hc, hf, hp, .inr (.inl hlt)⟩
        | _ =>
          rw [hk] at hs
          exact hs }
  stocked := k.stocked
  housed := k.housed

theorem NodeKind.onTime_of_not_folds {kind : NodeKind} (h : kind.folds = false)
    {members : AlphaId → IdSet} {μ : Match} {made : Extension → Prop} :
    kind.OnTime store members μ made := by
  cases kind with
  | accumulate feed fold having => cases h
  | _ => trivial

/-- Where results are exact, what is due has been made unless results are deferred. -/
theorem Sound.made_exact (S : Sound net store x m) (hx : x.Still) (hstale : ¬ x.stale n left)
    (hagree : ∀ {a b}, x.agree a b → a = b) (hn : net.node? n = some node)
    (hl : m.LiveAt left node.parent) (hsums : node.kind.SumsIntegers store m.members)
    (hd : m.deferred.isSome = false) (e : Extension) :
    (∃ t, m.Made n left t e) ↔ e ∈ node.kind.extensions store m.members (m.matchOf left) := by
  obtain ⟨es, hes, rfl | ⟨feed, fold, having, result, result', -, hab, rfl, hexact⟩⟩ :=
    (S.settled hn hl (hx.idle n left)).made_extends (hx.told n) hstale (Matching.not_marked hd) hsums
      fun hmade => S.carries hmade (Network.kind?_eq hn)
  · exact hes e
  · rw [hes, hexact, hagree hab]

/-- Where results are exact, a result is overdue for which nothing has been made though one is due. -/
theorem Sound.overdue_iff (S : Sound net store x m) (hx : x.Still) (hstale : ¬ x.stale n left)
    (hagree : ∀ {a b}, x.agree a b → a = b) (hn : net.node? n = some node)
    (hl : m.LiveAt left node.parent) (hsums : node.kind.SumsIntegers store m.members)
    (hnone : ∀ t e, ¬ m.Made n left t e) : m.Overdue net store n left ↔
      ¬ node.kind.OnTime store m.members (m.matchOf left) fun _ => False := by
  have hno : (fun e => ∃ t, m.Made n left t e) = fun _ => False :=
    funext fun e => propext ⟨fun ⟨t, hmade⟩ => hnone t e hmade, False.elim⟩
  rw [Matching.Overdue, S.onTime_iff hx hn hl hsums, hno, and_iff_right_iff_imp]
  intro hlate
  cases hk : node.kind with
  | accumulate feed fold having =>
    obtain ⟨acc, -, hmade, -, hmark | hold | hab⟩ := S.result hx hn hl hk hsums
    · exact hmark
    · exact absurd hold hstale
    · have hstand : m.standing? n left = none := by
        cases hstand : m.standing? n left with
        | none => rfl
        | some v =>
          obtain ⟨t, ht⟩ := (hmade (.result v)).2 (by rw [hstand]; exact List.mem_singleton_self _)
          exact (hnone t _ ht).elim
      rw [hk] at hlate
      refine absurd ⟨none, fun e => iff_of_false id List.not_mem_nil, ?_⟩ hlate
      rw [← hagree hab, hstand]
      rfl
  | _ =>
    rw [hk] at hlate
    exact (hlate trivial).elim

/-- For a new left token what is due is made, but for results while they are deferred. -/
theorem Spares.arrives {J : Sites} {X : Matching → Matching → Spots} (D : Spares net J X m m')
    (S' : Sound net store y m') (hy : y.Still)
    (hstale : ∀ n left, m.nextToken ≤ left → ¬ y.stale n left)
    (hagree : ∀ {a b}, y.agree a b → a = b) (hn : net.node? n = some node)
    (hle : m.nextToken ≤ left) (hl' : m'.LiveAt left node.parent)
    (hsums' : node.kind.SumsIntegers store m'.members) :
    (∀ e, (∃ t, m'.Made n left t e) ↔ ¬ (node.kind.folds = true ∧ m.deferred.isSome = true) ∧
      e ∈ node.kind.extensions store m'.members (m'.matchOf left)) ∧
    (m'.Overdue net store n left ↔ m.deferred.isSome = true ∧
      ¬ node.kind.OnTime store m'.members (m'.matchOf left) fun _ => False) := by
  have hkind := Network.kind?_eq hn
  have hheld : node.kind.folds = true → m.deferred.isSome = true → ∀ t e, ¬ m'.Made n left t e := by
    rintro hfolds hd t e hmade
    have hle' := Nat.le_trans hle (Nat.le_of_lt (hmade.leftOf S'.forest).1)
    obtain ⟨depth, ho⟩ := hmade
    have hheld := D.held hd ho hle' rfl
    rw [hkind, Option.any_some, hfolds] at hheld
    cases hheld
  refine ⟨fun e => ?_, ?_⟩
  · cases hfolds : node.kind.folds with
    | false =>
      rw [(S'.settled hn hl' (hy.idle n left)).made_iff (hy.told n)
        (fun hmade => S'.carries hmade hkind) hfolds]
      exact ⟨fun h => ⟨fun h' => (nomatch h'.1), h⟩, And.right⟩
    | true =>
      cases hd : m.deferred.isSome with
      | true => exact iff_of_false (fun ⟨t, h⟩ => hheld hfolds hd t e h) fun h => h.1 ⟨rfl, rfl⟩
      | false =>
        rw [S'.made_exact hy (hstale n left hle) hagree hn hl' hsums' (D.deferring.trans hd)]
        exact ⟨fun h => ⟨fun h' => (nomatch h'.2), h⟩, And.right⟩
  · cases hfolds : node.kind.folds with
    | false =>
      exact iff_of_false (S'.not_overdue hy hn hl' hfolds)
        fun h => h.2 (NodeKind.onTime_of_not_folds hfolds)
    | true =>
      cases hd : m.deferred.isSome with
      | true =>
        rw [S'.overdue_iff hy (hstale n left hle) hagree hn hl' hsums' (hheld hfolds hd)]
        exact (and_iff_right rfl).symm
      | false => exact iff_of_false (Matching.not_overdue (D.deferring.trans hd)) fun h => nomatch h.1

/-! ## When an update ends -/

/-- An update has ended: of the results that were marked those are made anew that were not on time. -/
structure Reviewed (net : Network) (store : WorkingMemory) (x : Ledger)
    (dirty : Std.ExtTreeSet (NodeId × TokenId) dictionary) (m m' : Matching) : Prop where
  sound : Sound net store (x.since m) m'
  members : m'.members = m.members
  spares : Spares net .none (fun m m' n left => (n, left) ∈ dirty.toList ∧
    Matching.Redone net store m m' n left) { m with deferred := none } m'
  onTime : ∀ {n left}, (n, left) ∈ dirty.toList → left < m.nextToken → m'.Lives left →
    Matching.Unmoved { m with deferred := none } m' n left →
    Matching.OnTime net store { m with deferred := none } n left

theorem Matching.isMarked_iff {dirty : Std.ExtTreeSet (NodeId × TokenId) dictionary}
    (hd : m.deferred = some dirty) :
    (m.about n left).marked = true ↔ (n, left) ∈ dirty.toList := by
  rw [Std.ExtTreeSet.mem_toList, ← Std.ExtTreeSet.contains_iff_mem]
  show m.isMarked n left = true ↔ _
  rw [isMarked, hd, Option.any_some]

/-- Nothing is marked but results of left tokens. -/
theorem Sound.left_of_marked (S : Sound net store x m)
    {dirty : Std.ExtTreeSet (NodeId × TokenId) dictionary} (hd : m.deferred = some dirty)
    (hin : (n, left) ∈ dirty.toList) : m.LeftOf net n left :=
  Classical.byContradiction fun hno => by
    have hmark := (Matching.isMarked_iff hd).2 hin
    rw [S.blank hno] at hmark
    cases hmark

theorem Kept.reviewed (W : net.WellFormed) (k : Kept net store x m) (hx : x.Quiet)
    (hclose : ∀ a b : Option Value, (a == b) = true → x.agree a b)
    {dirty : Std.ExtTreeSet (NodeId × TokenId) dictionary} (hd : m.deferred = some dirty)
    (hm' : m.endUpdate net store = m') : Reviewed net store x dirty m m' := by
  simp only [Matching.endUpdate, hd] at hm'
  have k₁ := k.unmark hd
  have k₂ := k.since.unmark hd
  obtain ⟨D, hon⟩ := k₁.sound.redoes W k₁.stocked ⟨hx.filed, hx.listed, hx.idle, hx.agree⟩ hclose
    (k₁.sound.tidy hx.idle) rfl hm'
  have hx₂ := hx.since m
  obtain ⟨S', M⟩ := k₂.sound.settleAllStale W k₂.stocked
    ⟨hx₂.filed, hx₂.listed, hx₂.idle, hx₂.agree⟩ (fun n left hin => .inr hin) hm'
  refine ⟨?_, M.members, D, hon _ _⟩
  have S'' : Sound net store { x.since m with stale := (x.since m).stale } m' :=
    S'.freshen fun {n node left} _ _ _ _ _ _ _ hstale => hstale.elim id fun hin => by
      obtain ⟨node, -, o, ho, -⟩ := k.sound.left_of_marked hd hin
      exact k.sound.forest.lt_next ho
  exact S''

/-- A left token that stays meets its fate when an update ends. -/
theorem Reviewed.meets {dirty : Std.ExtTreeSet (NodeId × TokenId) dictionary}
    (R : Reviewed net store x dirty m m') (S : Sound net store x m) (hx : x.Still)
    (hd : m.deferred = some dirty) (hn : net.node? n = some node) (hlt : left < m.nextToken)
    (hl' : m'.LiveAt left node.parent) (hsums' : node.kind.SumsIntegers store m'.members) :
    m.Meets net store m' n left (node.kind.review store m'.members (m.matchOf left)
      (m.Overdue net store n left)) := by
  have F₁ : Matching.Forest { m with deferred := none } net := S.forest.congr rfl rfl
  have hmatch₁ : Matching.matchOf { m with deferred := none } = m.matchOf := Matching.matchOf_congr rfl
  obtain ⟨hl, hlives, hmatch⟩ := R.spares.toLater.earlier F₁ R.sound.forest hlt hl'
  rw [hmatch₁] at hmatch
  have hlate : m.Overdue net store n left ↔ (n, left) ∈ dirty.toList ∧
      ¬ Matching.OnTime net store { m with deferred := none } n left := by
    rw [Matching.Overdue, Matching.isMarked_iff hd]
    refine and_congr_right fun _ => not_congr ?_
    unfold Matching.OnTime
    rw [hmatch₁]
    exact Iff.rfl
  have hdirect : m'.deferred.isSome = false := R.spares.deferring
  have hover : ¬ m'.Overdue net store n left := Matching.not_overdue hdirect
  have hy : (x.since m).Still := ⟨hx.idle, hx.told⟩
  rcases R.spares.spots hlt hlives with hu | ⟨hin, feed, fold, having, acc, hk, hacc₁, hacc,
      hlate', hnew, hstand⟩
  · have hno : ¬ m.Overdue net store n left := fun h =>
      (hlate.1 h).2 (R.onTime (hlate.1 h).1 hlt hlives hu)
    refine .of_kept S.forest (fun {t e} => ?_) (fun _ => hno) (fun _ h => hno h.1)
      (iff_of_false hover id)
    cases hjoin : node.kind.isJoin with
    | false =>
      have hkeep : m.KeepsOutput m' n left := hu.keeps
      exact hkeep.made_iff S hx R.sound hy hn hl hl' hjoin
    | true =>
      constructor
      · rintro ⟨depth, ho⟩
        by_cases hold : t < m.nextToken
        · exact ⟨depth, R.spares.survive hold ho⟩
        · have hcarries := R.sound.carries ⟨depth, ho⟩ (Network.kind?_eq hn)
          obtain ⟨i, rfl⟩ := NodeKind.Carries.fact hcarries hjoin
          exact (R.spares.born ho (Nat.not_lt.1 hold) rfl rfl rfl hlt).elim
      · rintro ⟨depth, ho⟩
        obtain ⟨i, rfl⟩ := NodeKind.Carries.fact (S.carries ⟨depth, ho⟩ (Network.kind?_eq hn)) hjoin
        exact ⟨depth, R.spares.joins ho rfl rfl rfl id hlt hlives⟩
  · have hkind := Option.some.inj ((Network.kind?_eq hn).symm.trans hk)
    obtain ⟨acc', hacc', hmade, hgated, -⟩ := R.sound.result hy hn hl' hkind hsums'
    obtain rfl := Option.some.inj (hacc.symm.trans hacc')
    have hdue : m.Overdue net store n left := hlate.2 ⟨hin, fun hon =>
      Bool.false_ne_true (hlate'.symm.trans (hon feed fold having acc hk hacc₁))⟩
    refine .of_renewed (fun h => hnew.made_new R.sound hy hn hl' (by rw [hkind]; rfl) h)
      (fun h => ⟨h.lt S.forest, fun hno => hno hdue⟩) (fun e => ?_) (iff_of_false hover id)
    rw [hmade, hstand, hgated, hkind, hmatch]
    exact ⟨fun h => ⟨hdue, h⟩, And.right⟩

end

end RuleNet
