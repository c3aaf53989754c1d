/-
  Two networks that have nodes in common.

  Nodes of two networks may do the same, though one network holds more than the other. Then the tokens
  of these nodes can be related with each other, and steps that treat left tokens in one manner leave
  them related, whatever they do elsewhere.

  * `Manner`: what becomes of left tokens that stay, and what is made for those that come, as it depends on
    the match and on what has been made so far; `Treats`: a step treats all left tokens in a manner.
  * `Kept.treats_retract`, `Kept.treats_expireWindows`, `Kept.treats_assert`, `Kept.treats_endUpdate`: so
    do the steps that requests are made of.
  * `NodeKind.Alike`: nodes of two networks do the same, fed by memories that take the same facts.
  * `Manner.Alike`: what becomes of left tokens is the same at such nodes.
  * `Mirrors`: related tokens have the same matches, and for related left tokens such nodes have made
    related tokens.
  * `Mirrors.of_exact`: so it is where all results are exact.
  * `Mirrors.step`: steps that treat left tokens alike keep this.
  * `Mirrors.reach`: below nodes that do the same, every live token has a related one.
-/
import RuleNet.Proofs.Matching.Course
import RuleNet.Proofs.Network.Sharing

namespace RuleNet

open Matching (Extension)

/-! ## Manners -/

/-- How left tokens are treated. -/
structure Manner where
  /-- What becomes of one that stays, by its match, what has been made for it so far and whether a
      result is overdue. -/
  fate : NodeKind → Match → (Extension → Prop) → Prop → Fate
  /-- What is made for one that comes. -/
  comes : NodeKind → Match → Extension → Prop
  /-- Whether a result is then overdue. -/
  overdue : NodeKind → Match → Prop

namespace Manner

/-- Facts leave or enter memories. -/
def turn (store : WorkingMemory) (members members' : AlphaId → IdSet) (deferring : Bool) :
    Manner where
  fate kind μ made overdue := kind.fate store members members' μ deferring made overdue
  comes kind μ e := ¬ (kind.folds = true ∧ deferring = true) ∧ e ∈ kind.extensions store members' μ
  overdue kind μ := deferring = true ∧ ¬ kind.OnTime store members' μ fun _ => False

/-- Overdue results are made anew. -/
def review (store : WorkingMemory) (members : AlphaId → IdSet) : Manner where
  fate kind μ _ overdue := kind.review store members μ overdue
  comes kind μ e := e ∈ kind.extensions store members μ
  overdue _ _ := False

end Manner

/-- A step treats all left tokens in a manner. -/
structure Treats (net : Network) (store : WorkingMemory) (w : Manner) (m m' : Matching) : Prop where
  forest : m.Forest net
  forest' : m'.Forest net
  survive : ∀ {t o}, t < m.nextToken → m'.origin? t = some o → m.origin? t = some o
  stays : ∀ {n node left}, net.node? n = some node → left < m.nextToken →
    m'.LiveAt left node.parent → m.Meets net store m' n left (w.fate node.kind (m.matchOf left)
      (fun e => ∃ t, m.Made n left t e) (m.Overdue net store n left))
  comes : ∀ {n node left}, net.node? n = some node → m.nextToken ≤ left →
    m'.LiveAt left node.parent →
      (∀ e, (∃ t, m'.Made n left t e) ↔ w.comes node.kind (m'.matchOf left) e) ∧
      (m'.Overdue net store n left ↔ w.overdue node.kind (m'.matchOf left))

namespace Treats

variable {net : Network} {store : WorkingMemory} {w : Manner} {m m' : Matching} {t : TokenId}

/-- A token that stays was there before, with the same match. -/
theorem earlier (h : Treats net store w m m') (hlt : t < m.nextToken) {p : Option NodeId}
    (hl : m'.LiveAt t p) : m.LiveAt t p ∧ m'.matchOf t = m.matchOf t := by
  obtain ⟨o, ho, hp⟩ := hl
  exact ⟨⟨o, h.survive hlt ho, hp⟩, h.forest.matchOf_survive h.forest' h.survive ho hlt⟩

end Treats

section
variable {net : Network} {store : WorkingMemory} {x : Ledger} {m m' : Matching} {h : Handle}

/-- No double is added to a sum at any node. -/
def Network.SumsIntegers (net : Network) (store : WorkingMemory) (members : AlphaId → IdSet) : Prop :=
  ∀ {n kind}, net.kind? n = some kind → kind.SumsIntegers store members

theorem Ledger.Still.since (hx : x.Still) (m : Matching) : (x.since m).Still := ⟨hx.idle, hx.told⟩

variable (W : net.WellFormed)
include W

theorem Turns.treats (D : Turns net store m m') (S : Sound net store x m) (hx : x.Still)
    (S' : Sound net store x m') (S'' : Sound net store (x.since m) m')
    (hsums : net.SumsIntegers store m'.members) :
    Treats net store (.turn store m.members m'.members m.deferred.isSome) m m' where
  forest := S.forest
  forest' := S'.forest
  survive := D.survive
  stays hn hlt hl := D.meets W S hx S' hx hn hlt hl (hsums (Network.kind?_eq hn))
  comes hn hle hl := D.arrives S'' (hx.since m) (fun _ _ hle' => Nat.not_lt.2 hle') id hn hle hl
    (hsums (Network.kind?_eq hn))

/-- A fact leaves. -/
theorem Kept.treats_retract (k : Kept net store x m) (hx : x.Quiet) (hs : x.Still) {fact : Fact}
    (hf : store.fact? h = some fact) (hm' : m.retract net store h = m')
    (hsums : net.SumsIntegers store m'.members) :
    Treats net store (.turn store m.members m'.members m.deferred.isSome) m m' :=
  (k.turns_retract W hx hf hm').treats W k.sound hs (k.retract W hx hf hm').kept.sound
    (k.since.retract W (hx.since m) hf hm').kept.sound hsums

/-- Events that are too old leave their windows. -/
theorem Kept.treats_expireWindows (k : Kept net store x m) (hx : x.Quiet) (hs : x.Still)
    (now : Moment) (hm' : m.expireWindows net store now = m')
    (hsums : net.SumsIntegers store m'.members) :
    Treats net store (.turn store m.members m'.members m.deferred.isSome) m m' :=
  (k.turns_expireWindows W hx hs.told now hm').treats W k.sound hs
    (k.expireWindows W hx hs.told now hm').1.sound
    (k.since.expireWindows W (hx.since m) hs.told now hm').1.sound hsums

/-- A fact that is in no memory enters. -/
theorem Kept.treats_assert (k : Kept net store x m) (hx : x.Quiet) (hs : x.Still) {entry : Entry}
    (he : store.entry? h = some entry) (habsent : ∀ a, h ∉ m.members a)
    (htwice : ∀ n left, net.Exposed n → x.twice n left h) {now : Moment}
    (hm' : m.assert net store h now = m') (hsums : net.SumsIntegers store m'.members) :
    Treats net store (.turn store m.members m'.members m.deferred.isSome) m m' :=
  (k.turns_assert W hx hs.told he habsent htwice hm').treats W k.sound hs
    (k.assert W hx hs.told he habsent htwice hm').1.sound
    (k.since.assert W (hx.since m) hs.told he habsent htwice hm').1.sound hsums

/-- An update ends. -/
theorem Kept.treats_endUpdate (k : Kept net store x m) (hx : x.Quiet) (hs : x.Still)
    (hclose : ∀ a b : Option Value, (a == b) = true → x.agree a b)
    {dirty : Std.ExtTreeSet (NodeId × TokenId) dictionary} (hd : m.deferred = some dirty)
    (hm' : m.endUpdate net store = m') (hsums : net.SumsIntegers store m'.members) :
    Treats net store (.review store m'.members) m m' := by
  have R := k.reviewed W hx hclose hd hm'
  refine ⟨k.sound.forest, R.sound.forest, R.spares.survive, fun hn hlt hl =>
    R.meets k.sound hs hd hn hlt hl (hsums (Network.kind?_eq hn)), fun {n node left} hn hle hl => ?_⟩
  obtain ⟨hmade, hover⟩ := R.spares.arrives R.sound (hs.since m) (fun _ _ hle' => Nat.not_lt.2 hle')
    id hn hle hl (hsums (Network.kind?_eq hn))
  refine ⟨fun e => (hmade e).trans (and_iff_right fun hdeferring => nomatch hdeferring.2), ?_⟩
  exact hover.trans (iff_of_false (fun hdeferring => nomatch hdeferring.1) id)

end

/-! ## Nodes that do the same -/

/-- Facts are found in the same way, in memories that are alike. -/
structure Feed.Alike (like : AlphaId → AlphaId → Prop) (feed feed' : Feed) : Prop where
  alpha : like feed.alpha feed'.alpha
  tests : feed'.tests = feed.tests
  index : feed'.index = feed.index

/-- Nodes do the same with memories that are alike. -/
inductive NodeKind.Alike (like : AlphaId → AlphaId → Prop) : NodeKind → NodeKind → Prop
  | join {feed feed' : Feed} (h : feed.Alike like feed') : Alike like (.join feed) (.join feed')
  | absent {feed feed' : Feed} (h : feed.Alike like feed') :
    Alike like (.absent feed) (.absent feed')
  | present {feed feed' : Feed} (h : feed.Alike like feed') :
    Alike like (.present feed) (.present feed')
  | accumulate {feed feed' : Feed} (h : feed.Alike like feed') (fold : Fold)
    (having : Option (Operator × TestOperand Place)) :
    Alike like (.accumulate feed fold having) (.accumulate feed' fold having)
  | predicate {p q : Predicate} (h : q.holds = p.holds) (scope : List (String × Place)) :
    Alike like (.predicate p scope) (.predicate q scope)

section
variable {like : AlphaId → AlphaId → Prop} {store : WorkingMemory}
  {members members' after after' : AlphaId → IdSet} {feed feed' : Feed} {kind kind' : NodeKind}

/-- Memories that are alike hold the same. -/
def HoldAlike (like : AlphaId → AlphaId → Prop) (members members' : AlphaId → IdSet) : Prop :=
  ∀ a b, like a b → members' b = members a

theorem Feed.Alike.partners (h : feed.Alike like feed') (hm : HoldAlike like members members')
    (μ : Match) : μ.partners store members' feed' = μ.partners store members feed :=
  Match.partners_congr (hm _ _ h.alpha) h.tests h.index μ

namespace NodeKind.Alike

theorem folds_eq (h : kind.Alike like kind') : kind'.folds = kind.folds := by
  cases h <;> rfl

/-- They add the same to a match. -/
theorem extensions_eq (h : kind.Alike like kind') (hm : HoldAlike like members members')
    (μ : Match) : kind'.extensions store members' μ = kind.extensions store members μ := by
  cases h with
  | join hf | absent hf | present hf => simp only [extensions, hf.partners hm]
  | accumulate hf => simp only [extensions, Match.folded?, hf.partners hm]
  | predicate hp => simp only [extensions, hp]

theorem onTime_eq (h : kind.Alike like kind') (hm : HoldAlike like members members') (μ : Match)
    (made : Extension → Prop) :
    kind'.OnTime store members' μ made = kind.OnTime store members μ made := by
  cases h with
  | accumulate hf => simp only [OnTime, Match.folded?, hf.partners hm]
  | _ => rfl

/-- The same becomes of a left token when facts come and go. -/
theorem fate_eq (h : kind.Alike like kind') (hm : HoldAlike like members members')
    (ha : HoldAlike like after after') (μ : Match) (deferring : Bool) (made : Extension → Prop)
    (overdue : Prop) : kind'.fate store members' after' μ deferring made overdue =
      kind.fate store members after μ deferring made overdue := by
  have hbefore := @extensions_eq like store _ _ _ _ h hm μ
  have hafter := @extensions_eq like store _ _ _ _ h ha μ
  have htime := @onTime_eq like store _ _ _ _ h ha μ made
  cases h with
  | join hf | absent hf | predicate hp => simp only [fate, hbefore, hafter]
  | present hf | accumulate hf =>
    simp only [fate, hafter, htime, hf.partners hm, hf.partners ha]

end NodeKind.Alike

/-- The same becomes of left tokens at nodes that do the same. -/
structure Manner.Alike (like : AlphaId → AlphaId → Prop) (w w' : Manner) : Prop where
  fate : ∀ {kind kind'}, kind.Alike like kind' → ∀ μ made overdue,
    w'.fate kind' μ made overdue = w.fate kind μ made overdue
  comes : ∀ {kind kind'}, kind.Alike like kind' → ∀ μ e,
    w'.comes kind' μ e = w.comes kind μ e
  overdue : ∀ {kind kind'}, kind.Alike like kind' → ∀ μ, w'.overdue kind' μ = w.overdue kind μ

theorem Manner.alike_turn (hm : HoldAlike like members members') (ha : HoldAlike like after after')
    (deferring : Bool) : (turn store members after deferring).Alike like
      (turn store members' after' deferring) where
  fate h μ made overdue := h.fate_eq hm ha μ deferring made overdue
  comes h μ e := by
    show (¬ (_ ∧ _) ∧ _) = (¬ (_ ∧ _) ∧ _)
    rw [h.folds_eq, h.extensions_eq ha]
  overdue h μ := by
    show (_ ∧ ¬ _) = (_ ∧ ¬ _)
    rw [h.onTime_eq ha]

theorem Manner.alike_review (hm : HoldAlike like members members') :
    (review store members).Alike like (review store members') where
  fate h μ _ overdue := by
    show NodeKind.review _ _ _ _ _ = NodeKind.review _ _ _ _ _
    rw [NodeKind.review, NodeKind.review, h.extensions_eq hm]
  comes h μ e := by
    show (_ ∈ _) = (_ ∈ _)
    rw [h.extensions_eq hm]
  overdue _ _ := rfl

end

/-! ## Related tokens -/

/-- Nodes that do the same, with a left token each. -/
def Facing (net net' : Network) (like : AlphaId → AlphaId → Prop) (m m' : Matching) (n n' : NodeId)
    (left left' : TokenId) : Prop :=
  ∃ node node', net.node? n = some node ∧ net'.node? n' = some node' ∧
    node.kind.Alike like node'.kind ∧ m.LiveAt left node.parent ∧ m'.LiveAt left' node'.parent

/-- Related tokens have the same matches, and for related left tokens nodes that do the same have
    made related tokens. -/
structure Mirrors (net net' : Network) (like : AlphaId → AlphaId → Prop) (store : WorkingMemory)
    (R : TokenId → TokenId → Prop) (m m' : Matching) : Prop where
  forest : m.Forest net
  forest' : m'.Forest net'
  root : R rootToken rootToken
  matched : ∀ {t t'}, R t t' → m.Lives t → m'.Lives t' → m'.matchOf t' = m.matchOf t
  made : ∀ {n n' left left'}, Facing net net' like m m' n n' left left' → R left left' →
    ∀ {t e}, m.Made n left t e → ∃ t', R t t' ∧ m'.Made n' left' t' e
  made' : ∀ {n n' left left'}, Facing net net' like m m' n n' left left' → R left left' →
    ∀ {t' e}, m'.Made n' left' t' e → ∃ t, R t t' ∧ m.Made n left t e
  overdue : ∀ {n n' left left'}, Facing net net' like m m' n n' left left' → R left left' →
    (m'.Overdue net' store n' left' ↔ m.Overdue net store n left)

/-- Tokens that stay are related as they were, and those that come are related if they carry the
    same below related tokens. -/
inductive Continues (R : TokenId → TokenId → Prop) (m₀ m₀' m m' : Matching) :
    TokenId → TokenId → Prop
  | old {t t'} (hlt : t < m₀.nextToken) (hlt' : t' < m₀'.nextToken) (h : R t t') :
    Continues R m₀ m₀' m m' t t'
  | new {n n' left left' t t' e} (hle : m₀.nextToken ≤ t) (hle' : m₀'.nextToken ≤ t')
    (habove : Continues R m₀ m₀' m m' left left') (hmade : m.Made n left t e)
    (hmade' : m'.Made n' left' t' e) : Continues R m₀ m₀' m m' t t'

section
variable {net net' : Network} {like : AlphaId → AlphaId → Prop} {store : WorkingMemory}
  {R : TokenId → TokenId → Prop} {m₀ m₀' m m' : Matching} {n n' : NodeId}
  {left left' t t' : TokenId} {w w' : Manner} {f : Fate}

theorem Continues.symm (h : Continues R m₀ m₀' m m' t t') :
    Continues (fun t' t => R t t') m₀' m₀ m' m t' t := by
  induction h with
  | old hlt hlt' h => exact .old hlt' hlt h
  | new hle hle' _ hmade hmade' ih => exact .new hle' hle ih hmade' hmade

/-- Left tokens that meet the same fate keep related tokens, and get related ones. -/
theorem Matching.Meets.related (h : m₀.Meets net store m n left f)
    (h' : m₀'.Meets net' store m' n' left' f) (F' : m₀'.Forest net')
    (hsurvive : ∀ {t o}, t < m₀.nextToken → m.origin? t = some o → m₀.origin? t = some o)
    (hmade : ∀ {t e}, m₀.Made n left t e → ∃ t', R t t' ∧ m₀'.Made n' left' t' e)
    (hleft : Continues R m₀ m₀' m m' left left') {e : Extension} (ht : m.Made n left t e) :
    ∃ t', Continues R m₀ m₀' m m' t t' ∧ m'.Made n' left' t' e := by
  by_cases hlt : t < m₀.nextToken
  · have hold : m₀.Made n left t e := by
      obtain ⟨depth, ho⟩ := ht
      exact ⟨depth, hsurvive hlt ho⟩
    obtain ⟨t', hR, hold'⟩ := hmade hold
    exact ⟨t', .old hlt (hold'.lt F') hR, (h'.old hold').2 ((h.old hold).1 ht)⟩
  · have hle := Nat.not_lt.1 hlt
    obtain ⟨t', hle', ht'⟩ := h'.new.2 (h.new.1 ⟨t, hle, ht⟩)
    exact ⟨t', .new hle hle' hleft ht ht', ht'⟩

namespace Mirrors

/-- Related left tokens that were there before meet the same fate. -/
theorem fate_eq (M : Mirrors net net' like store R m₀ m₀') (A : w.Alike like w')
    {node node' : BetaNode} (hn : net.node? n = some node) (hn' : net'.node? n' = some node')
    (halike : node.kind.Alike like node'.kind) (hl : m₀.LiveAt left node.parent)
    (hl' : m₀'.LiveAt left' node'.parent) (hR : R left left') :
    w'.fate node'.kind (m₀'.matchOf left') (fun e => ∃ t, m₀'.Made n' left' t e)
        (m₀'.Overdue net' store n' left') =
      w.fate node.kind (m₀.matchOf left) (fun e => ∃ t, m₀.Made n left t e)
        (m₀.Overdue net store n left) := by
  have hfacing : Facing net net' like m₀ m₀' n n' left left' :=
    ⟨node, node', hn, hn', halike, hl, hl'⟩
  have hmatch : m₀'.matchOf left' = m₀.matchOf left := by
    obtain ⟨o, ho, -⟩ := hl
    obtain ⟨o', ho', -⟩ := hl'
    exact M.matched hR ⟨o, ho⟩ ⟨o', ho'⟩
  have hmade : (fun e => ∃ t, m₀'.Made n' left' t e) = fun e => ∃ t, m₀.Made n left t e := by
    funext e
    refine propext ⟨fun ⟨t', ht'⟩ => ?_, fun ⟨t, ht⟩ => ?_⟩
    · obtain ⟨t, -, ht⟩ := M.made' hfacing hR ht'
      exact ⟨t, ht⟩
    · obtain ⟨t', -, ht'⟩ := M.made hfacing hR ht
      exact ⟨t', ht'⟩
  rw [hmatch, hmade, propext (M.overdue hfacing hR), A.fate halike]

/-- Steps that treat left tokens alike leave what has stayed related, and relate what has come. -/
theorem step (M : Mirrors net net' like store R m₀ m₀') (T : Treats net store w m₀ m)
    (T' : Treats net' store w' m₀' m') (A : w.Alike like w') :
    Mirrors net net' like store (Continues R m₀ m₀' m m') m m' := by
  have hmatched : ∀ {t t'}, Continues R m₀ m₀' m m' t t' → m.Lives t → m'.Lives t' →
      m'.matchOf t' = m.matchOf t := fun {t t'} h => by
    induction h with
    | old hlt hlt' hR =>
      rintro ⟨o, ho⟩ ⟨o', ho'⟩
      obtain ⟨⟨o₀, ho₀, -⟩, hmatch⟩ := T.earlier hlt ⟨o, ho, rfl⟩
      obtain ⟨⟨o₀', ho₀', -⟩, hmatch'⟩ := T'.earlier hlt' ⟨o', ho', rfl⟩
      rw [hmatch, hmatch', M.matched hR ⟨o₀, ho₀⟩ ⟨o₀', ho₀'⟩]
    | new hle hle' _ hmade hmade' ih =>
      intro _ _
      obtain ⟨-, node, -, above, habove, -⟩ := hmade.leftOf T.forest'
      obtain ⟨-, node', -, above', habove', -⟩ := hmade'.leftOf T'.forest'
      rw [hmade.matchOf T.forest', hmade'.matchOf T'.forest', ih ⟨above, habove⟩ ⟨above', habove'⟩]
  -- what becomes of two related left tokens, old or new
  have hboth : ∀ {n n' left left'}, Facing net net' like m m' n n' left left' →
      Continues R m₀ m₀' m m' left left' →
      (∀ {t e}, m.Made n left t e → ∃ t', Continues R m₀ m₀' m m' t t' ∧ m'.Made n' left' t' e) ∧
      (∀ {t' e}, m'.Made n' left' t' e → ∃ t, Continues R m₀ m₀' m m' t t' ∧ m.Made n left t e) ∧
      (m'.Overdue net' store n' left' ↔ m.Overdue net store n left) := by
    rintro n n' left left' ⟨node, node', hn, hn', halike, hl, hl'⟩ hR
    have hmatch : m'.matchOf left' = m.matchOf left := by
      obtain ⟨o, ho, -⟩ := hl
      obtain ⟨o', ho', -⟩ := hl'
      exact hmatched hR ⟨o, ho⟩ ⟨o', ho'⟩
    cases hR with
    | old hlt hlt' hold =>
      have hbefore := (T.earlier hlt hl).1
      have hbefore' := (T'.earlier hlt' hl').1
      have hfacing : Facing net net' like m₀ m₀' n n' left left' :=
        ⟨node, node', hn, hn', halike, hbefore, hbefore'⟩
      have h := T.stays hn hlt hl
      have h' := T'.stays hn' hlt' hl'
      rw [M.fate_eq A hn hn' halike hbefore hbefore' hold] at h'
      refine ⟨h.related h' M.forest' T.survive (M.made hfacing hold) (.old hlt hlt' hold),
        fun ht' => ?_, h'.overdue.trans h.overdue.symm⟩
      obtain ⟨t, hR, ht⟩ := h'.related h M.forest T'.survive (M.made' hfacing hold)
        (Continues.old hlt hlt' hold).symm ht'
      exact ⟨t, hR.symm, ht⟩
    | new hle hle' habove hmade hmade' =>
      obtain ⟨hcomes, hover⟩ := T.comes hn hle hl
      obtain ⟨hcomes', hover'⟩ := T'.comes hn' hle' hl'
      rw [hmatch, A.overdue halike] at hover'
      have hsame : ∀ e, (∃ t, m'.Made n' left' t e) ↔ ∃ t, m.Made n left t e := fun e => by
        rw [hcomes', hcomes, hmatch, A.comes halike]
      have hrelated : ∀ {t t' e}, m.Made n left t e → m'.Made n' left' t' e →
          Continues R m₀ m₀' m m' t t' := fun ht ht' =>
        .new (Nat.le_trans hle (Nat.le_of_lt (ht.leftOf T.forest').1))
          (Nat.le_trans hle' (Nat.le_of_lt (ht'.leftOf T'.forest').1))
          (.new hle hle' habove hmade hmade') ht ht'
      refine ⟨fun {t e} ht => ?_, fun {t' e} ht' => ?_, hover'.trans hover.symm⟩
      · obtain ⟨t', ht'⟩ := (hsame e).2 ⟨t, ht⟩
        exact ⟨t', hrelated ht ht', ht'⟩
      · obtain ⟨t, ht⟩ := (hsame e).1 ⟨t', ht'⟩
        exact ⟨t, hrelated ht ht', ht⟩
  exact ⟨T.forest', T'.forest', .old (M.forest.lt_next M.forest.root)
    (M.forest'.lt_next M.forest'.root) M.root, hmatched, fun h hR => (hboth h hR).1,
    fun h hR => (hboth h hR).2.1, fun h hR => (hboth h hR).2.2⟩

/-- The events are taken from both. -/
theorem takeEvents (M : Mirrors net net' like store R m m') :
    Mirrors net net' like store R { m with events := #[] } { m' with events := #[] } := by
  have hmatch : ∀ m : Matching, Matching.matchOf { m with events := #[] } = m.matchOf :=
    fun m => Matching.matchOf_congr rfl
  have hover : ∀ {net : Network} (m : Matching) (n : NodeId) (left : TokenId),
      Matching.Overdue net store { m with events := #[] } n left ↔ m.Overdue net store n left :=
    fun m n left => by
      rw [Matching.Overdue, Matching.Overdue, Matching.OnTime, Matching.OnTime, hmatch]
      rfl
  exact ⟨M.forest.congr rfl rfl, M.forest'.congr rfl rfl, M.root, fun hR hl hl' => by
    rw [hmatch, hmatch]
    exact M.matched hR hl hl', M.made, M.made', fun hfacing hR => by
    rw [hover, hover]
    exact M.overdue hfacing hR⟩

/-- Where the nodes down to two places do the same, the tokens at both are related. -/
theorem reach (M : Mirrors net net' like store R m m') (W : net.WellFormed) (W' : net'.WellFormed)
    {last last' : Option NodeId} (hl : net.Holds last) (hl' : net'.Holds last')
    (halike : List.Forall₂ (NodeKind.Alike like) (net.trail last) (net'.trail last')) :
    (∀ t, m.LiveAt t last → ∃ t', R t t' ∧ m'.LiveAt t' last') ∧
      ∀ t', m'.LiveAt t' last' → ∃ t, R t t' ∧ m.LiveAt t last := by
  induction hsize : (net.trail last).length generalizing last last' with
  | zero =>
    obtain rfl := W.eq_none_of_trail hl (List.length_eq_zero_iff.1 hsize)
    obtain rfl := W'.eq_none_of_trail hl' (List.length_eq_zero_iff.1 (halike.length_eq ▸ hsize))
    refine ⟨fun t ht => ?_, fun t' ht' => ?_⟩
    · obtain rfl := M.forest.eq_root ht
      exact ⟨rootToken, M.root, M.forest'.live_root⟩
    · obtain rfl := M.forest'.eq_root ht'
      exact ⟨rootToken, M.root, M.forest.live_root⟩
  | succ size ih =>
    cases last with
    | none => cases hsize
    | some n =>
      cases last' with
      | none => cases halike.length_eq.symm.trans hsize
      | some n' =>
        obtain ⟨node, hn⟩ := hl n rfl
        obtain ⟨node', hn'⟩ := hl' n' rfl
        simp only [Network.trail, W.branchTo_eq hn, W'.branchTo_eq hn'] at halike hsize
        obtain ⟨before, kind, heq, habove, hkind⟩ := Network.forall₂_concat halike
        obtain ⟨rfl, hkinds⟩ := List.append_inj' heq rfl
        obtain rfl := (List.cons.inj hkinds).1
        rw [List.length_append] at hsize
        obtain ⟨hup, hup'⟩ := ih (W.holds_parent hn) (W'.holds_parent hn') habove
          (Nat.succ.inj hsize)
        refine ⟨fun t ht => ?_, fun t' ht' => ?_⟩
        · obtain ⟨left, e, hmade, hleft⟩ := M.forest.made_at hn ht
          obtain ⟨left', hR, hleft'⟩ := hup left hleft
          obtain ⟨t', hR', hmade'⟩ :=
            M.made ⟨node, node', hn, hn', hkind, hleft, hleft'⟩ hR hmade
          exact ⟨t', hR', hmade'.live⟩
        · obtain ⟨left', e, hmade', hleft'⟩ := M.forest'.made_at hn' ht'
          obtain ⟨left, hR, hleft⟩ := hup' left' hleft'
          obtain ⟨t, hR', hmade⟩ :=
            M.made' ⟨node, node', hn, hn', hkind, hleft, hleft'⟩ hR hmade'
          exact ⟨t, hR', hmade.live⟩

/-- Where all results are exact, tokens are related that have the same matches. -/
theorem of_exact {x x' : Ledger} (S : Sound net store x m) (S' : Sound net' store x' m')
    (hx : x.Still) (hx' : x'.Still) (hfresh : ∀ n left, ¬ x.stale n left)
    (hfresh' : ∀ n left, ¬ x'.stale n left) (hagree : ∀ {a b}, x.agree a b → a = b)
    (hagree' : ∀ {a b}, x'.agree a b → a = b) (hd : m.deferred.isSome = false)
    (hd' : m'.deferred.isSome = false) (hsums : net.SumsIntegers store m.members)
    (hsums' : net'.SumsIntegers store m'.members) (hm : HoldAlike like m.members m'.members) :
    Mirrors net net' like store
      (fun t t' => m.Lives t ∧ m'.Lives t' ∧ m'.matchOf t' = m.matchOf t) m m' := by
  have hsame : ∀ {n n' left left'}, Facing net net' like m m' n n' left left' →
      m'.matchOf left' = m.matchOf left → ∀ e,
      (∃ t', m'.Made n' left' t' e) ↔ ∃ t, m.Made n left t e := by
    rintro n n' left left' ⟨node, node', hn, hn', halike, hl, hl'⟩ hmatch e
    rw [S.made_exact hx (hfresh n left) hagree hn hl (hsums (Network.kind?_eq hn)) hd e,
      S'.made_exact hx' (hfresh' n' left') hagree' hn' hl' (hsums' (Network.kind?_eq hn')) hd' e,
      hmatch, halike.extensions_eq hm]
  have hrelated : ∀ {n n' left left' t t' e}, m'.matchOf left' = m.matchOf left →
      m.Made n left t e → m'.Made n' left' t' e →
      m.Lives t ∧ m'.Lives t' ∧ m'.matchOf t' = m.matchOf t := fun hmatch ht ht' => by
    refine ⟨?_, ?_, by rw [ht.matchOf S.forest, ht'.matchOf S'.forest, hmatch]⟩
    · obtain ⟨depth, ho⟩ := ht
      exact ⟨_, ho⟩
    · obtain ⟨depth, ho⟩ := ht'
      exact ⟨_, ho⟩
  exact
    { forest := S.forest
      forest' := S'.forest
      root := ⟨⟨_, S.forest.root⟩, ⟨_, S'.forest.root⟩, by
        rw [Matching.matchOf_root S.forest, Matching.matchOf_root S'.forest]⟩
      matched := fun hR _ _ => hR.2.2
      made := fun {_ _ _ _} hfacing hR {t e} ht => by
        obtain ⟨t', ht'⟩ := (hsame hfacing hR.2.2 e).2 ⟨t, ht⟩
        exact ⟨t', hrelated hR.2.2 ht ht', ht'⟩
      made' := fun {_ _ _ _} hfacing hR {t' e} ht' => by
        obtain ⟨t, ht⟩ := (hsame hfacing hR.2.2 e).1 ⟨t', ht'⟩
        exact ⟨t, hrelated hR.2.2 ht ht', ht⟩
      overdue := fun _ _ => iff_of_false (Matching.not_overdue hd') (Matching.not_overdue hd) }

end Mirrors

end

end RuleNet
