/-
  A universal condition and its negation.

  A universal condition passes a match while no fact of its pattern violates a requirement; negated, it
  passes a match while there is such a fact. Where requirements read variables, both are asked of one
  memory. Where they read none, the facts that violate them have a memory of their own, which holds
  what is to be found among the others, unless a length window counts its members.

  * `Pattern.supply_violating`: what is asked for the facts that violate requirements.
  * `Session.complement_of_reached`: one of the two conditions passes a match, and the other does not.
-/
import RuleNet.Proofs.Network.Sharing
import RuleNet.Proofs.Query.Twins
import RuleNet.Proofs.Session.Evaluation
import RuleNet.Proofs.Session.Lockstep

namespace RuleNet

open Matching (Extension)

/-! ## Facts that violate requirements -/

theorem Constraint.isConstant_all {items : List Constraint} :
    (Constraint.all items).isConstant = true ↔ ∀ c ∈ items, c.isConstant = true := by
  show (readVarsOfAll items).isEmpty = true ↔ _
  induction items with
  | nil => simp [readVarsOfAll]
  | cons c rest ih =>
    rw [List.forall_mem_cons, ← ih, isConstant, List.isEmpty_iff, List.isEmpty_iff, List.isEmpty_iff]
    exact List.append_eq_nil_iff

namespace Scope

variable {types : Types} {scope : Scope} {type : FactType} {items : List Constraint}
  {tests : List (Test Place)}

theorem tests_concat {c : Constraint} {test : Test Place}
    (h : scope.tests .byDepth types type items = .ok tests)
    (hc : scope.test .byDepth types type c = .ok test) :
    scope.tests .byDepth types type (items ++ [c]) = .ok (tests ++ [test]) := by
  induction items generalizing tests with
  | nil =>
    rw [Scope.tests] at h
    cases h
    exact tests_cons_eq.2 ⟨test, [], hc, by rw [Scope.tests], rfl⟩
  | cons item rest ih =>
    obtain ⟨first, others, hfirst, hothers, rfl⟩ := tests_cons_eq.1 h
    exact tests_cons_eq.2 ⟨first, others ++ [test], hfirst, ih hothers, rfl⟩

theorem length_tests (h : scope.tests .byDepth types type items = .ok tests) :
    tests.length = items.length := by
  induction items generalizing tests with
  | nil =>
    rw [Scope.tests] at h
    cases h
    rfl
  | cons item rest ih =>
    obtain ⟨first, others, -, hothers, rfl⟩ := tests_cons_eq.1 h
    exact congrArg Nat.succ (ih hothers)

/-- Constraints that read no variable ask for nothing. -/
theorem silent_of_constant (h : scope.tests .byDepth types type items = .ok tests)
    (hconstant : Constraint.readVarsOfAll items = []) : Test.accessesOfAll tests = [] := by
  rw [tests_constant .byDepth types scope [] type items hconstant] at h
  refine List.eq_nil_iff_forall_not_mem.2 fun x hx => ?_
  have hanswered := (Scope.grounded_nil types []).tests type h x hx
  exact x.not_answeredBy_nil hanswered

end Scope

/-- A memory is asked to take what passes the constant tests, and the node is left the others. -/
theorem Pattern.supply_eq {types : Types} {scope : Scope} {type : FactType} {p : Pattern}
    {all : List (Test Place)} (h : scope.tests .byDepth types type p.constraints = .ok all) :
    p.supply types scope type = .ok
      (⟨type.name, ((p.constraints.zip all).filter fun item => item.1.isConstant).map Prod.snd,
        p.window⟩, ((p.constraints.zip all).filter fun item => !item.1.isConstant).map Prod.snd) := by
  rw [Pattern.supply, h]
  simp only [List.partition_eq_filter_filter]
  rfl

theorem Pattern.window_of_supply {types : Types} {scope : Scope} {type : FactType} {p : Pattern}
    {supply : Supply} {tests : List (Test Place)}
    (h : p.supply types scope type = .ok (supply, tests)) : supply.window = p.window := by
  obtain ⟨all, hall, -⟩ := ok_of_bind h
  cases h.symm.trans (supply_eq hall)
  rfl

/-- The facts that violate requirements are asked for as those of the pattern are. One more test picks
    them out: at the memory if the requirements read no variable, and at the node otherwise. -/
theorem Pattern.supply_violating {types : Types} {scope : Scope} {type : FactType} {p : Pattern}
    {require : List Constraint} {supply : Supply} {tests required : List (Test Place)}
    (h : p.supply types scope type = .ok (supply, tests))
    (hr : scope.tests .byDepth types type require = .ok required) :
    (p.violating require).supply types scope type = .ok
      (if (Constraint.all require).isConstant then
        ({ supply with tests := supply.tests ++ [.not (.all required)] }, tests)
      else (supply, tests ++ [.not (.all required)])) := by
  obtain ⟨all, hall, -⟩ := ok_of_bind h
  obtain ⟨rfl, rfl⟩ := Prod.mk.inj (Except.ok.inj (h.symm.trans (supply_eq hall)))
  have hviolated : scope.test .byDepth types type (.not (.all require)) =
      .ok (.not (.all required)) := by
    rw [Scope.test, Scope.test, hr]
    rfl
  have hboth : scope.tests .byDepth types type (p.violating require).constraints =
      .ok (all ++ [.not (.all required)]) := Scope.tests_concat hall hviolated
  have hzip : (p.violating require).constraints.zip (all ++ [.not (.all required)]) =
      p.constraints.zip all ++ [(.not (.all require), .not (.all required))] :=
    List.zip_append (Scope.length_tests hall).symm
  have hsame : (Constraint.not (.all require)).isConstant = (Constraint.all require).isConstant := rfl
  rw [supply_eq hboth, hzip, List.filter_append, List.filter_append, List.map_append,
    List.map_append]
  simp only [List.filter_cons, List.filter_nil, hsame]
  cases (Constraint.all require).isConstant <;> simp [Pattern.violating]

/-! ## Memories -/

theorem Dispatch.choose?_append_not (tests : List (Test Place)) (item : Test Place) :
    choose? (tests ++ [.not item]) = choose? tests := by
  rw [choose?, choose?, List.filterMap_append]
  simp only [List.filterMap_cons, Test.equalityLiteral?, List.filterMap_nil, List.append_nil]

/-- A memory with one more test takes what the test picks out. -/
theorem Network.Supplies.narrows {net : Network} (hd : net.Dispatched) {a b : AlphaId}
    {supply : Supply} {test : Test Place} (h : net.Supplies a supply)
    (h' : net.Supplies b { supply with tests := supply.tests ++ [.not test] }) :
    ∃ alpha beta, net.alpha? a = some alpha ∧ net.alpha? b = some beta ∧
      alpha.window = supply.window ∧
      beta.Narrows alpha fun entry => (Test.not test).holds .blank entry.fact entry.moment := by
  obtain ⟨alpha, ha, htype, hwindow, htests⟩ := h
  obtain ⟨beta, hb, htype', hwindow', htests'⟩ := h'
  refine ⟨alpha, beta, ha, hb, hwindow, hwindow'.trans hwindow.symm, fun now entry => ?_⟩
  have hdispatch : beta.dispatch = alpha.dispatch := by
    rw [hd a alpha ha, hd b beta hb, Dispatch.choose?_perm htests', Dispatch.choose?_append_not,
      Dispatch.choose?_perm htests]
  have hpasses : Test.allHold .blank entry.fact entry.moment beta.tests =
      (Test.allHold .blank entry.fact entry.moment alpha.tests &&
        (Test.not test).holds .blank entry.fact entry.moment) := by
    rw [Test.allHold_eq, Test.allHold_eq, htests'.all_eq, htests.all_eq, List.all_append,
      List.all_cons, List.all_nil, Bool.and_true]
  rw [AlphaNode.takes, AlphaNode.takes, AlphaNode.admits, AlphaNode.admits, hdispatch, htype', htype,
    hwindow'.trans hwindow.symm, hpasses]
  simp only [Bool.and_assoc, Bool.and_comm, Bool.and_left_comm]

/-! ## Nodes -/

namespace Match

variable {store : WorkingMemory} {μ : Match}

/-- A feed with one more test accepts what the test picks out. -/
theorem accepts_append_not {a b : AlphaId} {tests : List (Test Place)} {test : Test Place}
    {h : Handle} {entry : Entry} (he : store.entry? h = some entry) :
    μ.accepts store (Sketch.feed a (tests ++ [.not test])) h =
      (μ.accepts store (Sketch.feed b tests) h &&
        (Test.not test).holds (μ.view store) entry.fact entry.moment) := by
  simp only [accepts, Sketch.feed, he, JoinIndex.choose?_append_not, Test.allHold_eq,
    List.all_append, List.all_cons, List.all_nil, Bool.and_true]
  simp only [Bool.and_assoc, Bool.and_comm, Bool.and_left_comm]

end Match

namespace Network

variable {net : Network} {types : Types}

/-- How facts that violate requirements are found by the node of a universal condition and by that of
    its negation: by one feed, if a requirement reads variables, and otherwise by a test at the node
    and at the memory. -/
inductive Violations (net : Network) (p : Pattern) (require : List Constraint) : Feed → Feed → Prop
  | shared (feed : Feed) : Violations net p require feed feed
  | apart {a b : AlphaId} {supply : Supply} (tests : List (Test Place)) {test : Test Place}
    (ha : net.Supplies a supply)
    (hb : net.Supplies b { supply with tests := supply.tests ++ [.not test] })
    (hwindow : supply.window = p.window) (hsilent : test.accesses = [])
    (hconstant : ∀ c ∈ require, c.isConstant = true) :
    Violations net p require (Sketch.feed a (tests ++ [.not test])) (Sketch.feed b tests)

/-- A universal condition and its negation, after the same elements, have nodes below one place. -/
theorem Stands.violations (W : net.WellFormed) (S : net.Single) {rule rule' : Nat}
    {before : List Element} {p : Pattern} {require : List Constraint} {n n' : NodeId}
    (h : net.Stands types rule before (.every p require) n)
    (h' : net.Stands types rule' before (.present (p.violating require)) n') :
    ∃ node node' feed feed', net.node? n = some node ∧ net.node? n' = some node' ∧
      node'.parent = node.parent ∧ node.kind = .absent feed ∧ node'.kind = .present feed' ∧
      net.Violations p require feed feed' := by
  obtain ⟨node, node', scope, sketch, sketch', scope₁, scope₂, hn, hn', hparent, hsketch, hsketch',
    hfits, hfits'⟩ := h.beside W S h'
  obtain ⟨-, -, hsketch⟩ := ok_of_bind hsketch
  obtain ⟨type, htype, hsketch⟩ := ok_of_bind hsketch
  obtain ⟨⟨supply, tests⟩, hsupply, hsketch⟩ := ok_of_bind hsketch
  obtain ⟨required, hrequired, hsketch⟩ := ok_of_bind hsketch
  cases hsketch
  obtain ⟨-, -, hsketch'⟩ := ok_of_bind hsketch'
  obtain ⟨type', htype', hsketch'⟩ := ok_of_bind hsketch'
  cases htype.symm.trans htype'
  obtain ⟨⟨supply', tests'⟩, hsupply', hsketch'⟩ := ok_of_bind hsketch'
  cases hsketch'
  obtain ⟨a, hkind, ha⟩ := hfits.absent
  obtain ⟨b, hkind', hb⟩ := hfits'.present
  refine ⟨node, node', _, _, hn, hn', hparent, hkind, hkind', ?_⟩
  have heq := Except.ok.inj ((Pattern.supply_violating hsupply hrequired).symm.trans hsupply')
  cases hconstant : (Constraint.all require).isConstant with
  | true =>
    rw [hconstant, if_pos rfl] at heq
    cases heq
    exact .apart tests ha hb (Pattern.window_of_supply hsupply)
      (Scope.silent_of_constant hrequired (List.isEmpty_iff.1 hconstant))
      (Constraint.isConstant_all.1 hconstant)
  | false =>
    rw [hconstant, if_neg Bool.false_ne_true] at heq
    cases heq
    obtain ⟨alpha, halpha, htype, hwindow, htests⟩ := ha
    obtain ⟨beta, hbeta, htype', hwindow', htests'⟩ := hb
    rw [S.alphas halpha hbeta (htype.trans htype'.symm) (hwindow.trans hwindow'.symm)
      (htests.trans htests'.symm)]
    exact .shared _

end Network

namespace Session

variable {s : Session}

/-- An absence passes a match if there is no partner for it. -/
theorem Steady.made_absent (h : s.Steady) {n : NodeId} {node : BetaNode} {feed : Feed}
    {left : TokenId} (hn : s.network.node? n = some node) (hk : node.kind = .absent feed)
    (hl : s.matching.LiveAt left node.parent) : (∃ t, s.matching.Made n left t .nothing) ↔
      (s.matching.matchOf left).partners s.store s.matching.members feed = [] := by
  have hs := h.kept.sound.settled hn hl fun hb => hb
  rw [hk] at hs
  obtain ⟨facts, output, -, hc, hp⟩ := hs
  rw [hp.mem, hc.isEmpty_partners fun _ hlate => hlate, ← List.isEmpty_iff]
  cases ((s.matching.matchOf left).partners s.store s.matching.members feed).isEmpty <;> simp

/-- A presence passes a match if there is a partner for it. -/
theorem Steady.made_present (h : s.Steady) {n : NodeId} {node : BetaNode} {feed : Feed}
    {left : TokenId} (hn : s.network.node? n = some node) (hk : node.kind = .present feed)
    (hl : s.matching.LiveAt left node.parent) : (∃ t, s.matching.Made n left t .nothing) ↔
      (s.matching.matchOf left).partners s.store s.matching.members feed ≠ [] := by
  have hs := h.kept.sound.settled hn hl fun hb => hb
  rw [hk] at hs
  obtain ⟨facts, output, -, hc, hp⟩ := hs
  rw [hp.mem, hc.isEmpty_partners fun _ hlate => hlate, Ne, ← List.isEmpty_iff]
  cases ((s.matching.matchOf left).partners s.store s.matching.members feed).isEmpty <;> simp

/-- What the node of a universal condition finds, that of its negation finds. Conversely it does,
    unless a length window counts the facts and the requirements read no variable. -/
theorem Reached.partners_violations {base : RuleBase} {settings : Settings}
    (W : base.network.WellFormed) (hd : base.network.Dispatched) (hs : Reached base settings s)
    {p : Pattern} {require : List Constraint} {feed feed' : Feed}
    (V : base.network.Violations p require feed feed') (μ : Match) (i : Handle) :
    (i ∈ μ.partners s.store s.matching.members feed →
      i ∈ μ.partners s.store s.matching.members feed') ∧
    ((∀ capacity, p.window ≠ some (.length capacity)) ∨ (∃ c ∈ require, c.isConstant = false) →
      i ∈ μ.partners s.store s.matching.members feed' →
      i ∈ μ.partners s.store s.matching.members feed) := by
  cases V with
  | shared => exact ⟨id, fun _ => id⟩
  | @apart a b supply tests test ha hb hwindow hsilent hconstant =>
    obtain ⟨alpha, beta, ha, hb, halpha, N⟩ := ha.narrows hd hb
    have hview : ∀ entry : Entry, (Test.not test).holds (μ.view s.store) entry.fact entry.moment =
        (Test.not test).holds .blank entry.fact entry.moment := fun entry =>
      Test.holds_of_silent _ _ _ _ (.not test) hsilent
    rw [Match.mem_partners, Match.mem_partners]
    constructor
    · rintro ⟨hi, haccepts⟩
      obtain ⟨_, entry, -, he, -⟩ := (hs.steady W).1.kept.stocked.typed hi
      rw [Match.accepts_append_not (b := b) he, Bool.and_eq_true, hview] at haccepts
      exact ⟨hs.mem_narrowed W ha hb N hi he haccepts.2, haccepts.1⟩
    · rintro hw ⟨hi, haccepts⟩
      have hu : alpha.Unlimited := fun capacity => by
        rw [halpha, hwindow]
        refine hw.resolve_right ?_ capacity
        rintro ⟨c, hc, hvaries⟩
        rw [hconstant c hc] at hvaries
        cases hvaries
      obtain ⟨hmem, entry, he, hholds⟩ := (hs.selects W ha hb hu N).members.1 hi
      refine ⟨hmem, ?_⟩
      rw [Match.accepts_append_not (b := b) he, Bool.and_eq_true, hview]
      exact ⟨haccepts, hholds⟩

/-- A universal condition and its negation complement each other: for each match of what comes before
    them, one of them passes it. They may both pass it only where a length window counts the facts of
    the pattern and the requirements read no variable. -/
theorem complement_of_reached {declarations : Declarations} {base : RuleBase} {settings : Settings}
    (hb : declarations.build = .ok base) (hs : Reached base settings s) {p q : Nat}
    {pattern : Pattern} {require : List Constraint} {every negated : Element}
    (hevery : (Condition.every pattern require).branches = .ok [[every]])
    (hnegated : (Condition.absent (.every pattern require)).branches = .ok [[negated]])
    {before after after' : List Element} (hp : BranchOf base.rules p (before ++ every :: after))
    (hq : BranchOf base.rules q (before ++ negated :: after')) :
    ∃ n n', base.network.Stands base.types p before every n ∧
      base.network.Stands base.types q before negated n' ∧
      (∀ left, s.matching.LeftOf base.network n left ↔ s.matching.LeftOf base.network n' left) ∧
      ∀ left, s.matching.LeftOf base.network n left →
        ((∃ t, s.matching.Made n left t .nothing) ∨ ∃ t, s.matching.Made n' left t .nothing) ∧
        ((∀ capacity, pattern.window ≠ some (.length capacity)) ∨
            (∃ c ∈ require, c.isConstant = false) →
          ¬ ((∃ t, s.matching.Made n left t .nothing) ∧
            ∃ t, s.matching.Made n' left t .nothing)) := by
  cases hevery
  cases hnegated
  have C := Declarations.carries_build hb
  have W := C.wellFormed
  have S := Declarations.single_build hb
  obtain ⟨hsteady, hbase, -⟩ := hs.steady W
  have hnetwork : s.network = base.network := congrArg RuleBase.network hbase
  obtain ⟨n, hstands⟩ := C.stands hp
  obtain ⟨n', hstands'⟩ := C.stands hq
  obtain ⟨node, node', feed, feed', hn, hn', hparent, hkind, hkind', V⟩ :=
    hstands.violations W S hstands'
  have hleft : ∀ {k} {x : BetaNode}, base.network.node? k = some x → ∀ left,
      s.matching.LeftOf base.network k left ↔ s.matching.LiveAt left x.parent := fun {k x} hx left =>
    ⟨fun ⟨y, hy, hl⟩ => by cases hx.symm.trans hy; exact hl, fun hl => ⟨x, hx, hl⟩⟩
  refine ⟨n, n', hstands, hstands', fun left => by rw [hleft hn, hleft hn', hparent], fun left hl => ?_⟩
  rw [hleft hn] at hl
  rw [hsteady.made_absent (hnetwork ▸ hn) hkind hl, hsteady.made_present (hnetwork ▸ hn') hkind'
    (hparent ▸ hl)]
  constructor
  · refine Classical.or_iff_not_imp_left.2 fun hsome => ?_
    obtain ⟨i, hi⟩ := List.exists_mem_of_ne_nil _ hsome
    exact List.ne_nil_of_mem ((hs.partners_violations W C.dispatched V _ i).1 hi)
  · rintro hw ⟨hnone, hsome⟩
    obtain ⟨i, hi⟩ := List.exists_mem_of_ne_nil _ hsome
    exact List.ne_nil_of_mem ((hs.partners_violations W C.dispatched V _ i).2 hw hi) hnone

/-- A rule for a condition, and nothing else that would matter. -/
def plainRule (name : String) (condition : Condition) : Rule :=
  ⟨name, 0, mainGroup, false, false, false, condition, fun _ => .done⟩

def anyLot : Pattern := ⟨"lot", none, [], [("x", "id")], none⟩

/-- The latest checks of a lot. -/
def lotChecks : Pattern :=
  ⟨"check", none, [.compare "lot" .equal (.var "x")], [], some (.time (.ofMillis 100))⟩

def fine : List Constraint := [.compare "ok" .equal (.literal (.integer 1))]

/-- A lot passes while all of its latest checks are fine, and fails otherwise. -/
def lots : Declarations where
  types := [⟨"lot", [("id", .integer)], .fact, none, none⟩,
    ⟨"check", [("lot", .integer), ("ok", .integer)], .event, none, none⟩]
  rules := [
    plainRule "passes" (.all [.pattern anyLot, .every lotChecks fine]),
    plainRule "fails" (.all [.pattern anyLot, .absent (.every lotChecks fine)])]
  queries := []

/-- One of the two checks of a lot is fine. -/
def lotsRun (base : RuleBase) : Session :=
  (((start base { Settings.standard with clock := .manual } 0).change
    (.insert ⟨"lot", [("id", .integer 7)]⟩)).change
    (.insert ⟨"check", [("lot", .integer 7), ("ok", .integer 0)]⟩)).change
    (.insert ⟨"check", [("lot", .integer 7), ("ok", .integer 1)]⟩)

/-- The lot fails, and does not pass. -/
theorem complement_of_reached_lotsRun : ∃ base, lots.build = .ok base ∧
    Reached base { Settings.standard with clock := .manual } (lotsRun base) ∧
    ∃ n n' left,
      base.network.Stands base.types 0 [.pattern anyLot] (.every lotChecks fine) n ∧
      base.network.Stands base.types 1 [.pattern anyLot]
        (.present (lotChecks.violating fine)) n' ∧
      (lotsRun base).matching.LeftOf base.network n left ∧
      ((∃ t, (lotsRun base).matching.Made n left t .nothing) ∨
        ∃ t, (lotsRun base).matching.Made n' left t .nothing) ∧
      ¬ ((∃ t, (lotsRun base).matching.Made n left t .nothing) ∧
        ∃ t, (lotsRun base).matching.Made n' left t .nothing) := by
  -- every node has a left token
  obtain ⟨base, hb, hrun⟩ := Declarations.build_of_passes lots
    (fun base => base.network.nodes.all fun node => [0, 1].any fun t =>
      decide (((lotsRun base).matching.origin? t).map Origin.node = some node.parent))
    (by decide +kernel)
  have hrules : base.rules = lots.rules := by rw [(Declarations.build_eq hb).2]
  have hs : Reached base { Settings.standard with clock := .manual } (lotsRun base) :=
    (((Reached.start 0).change _).change _).change _
  have hpasses : BranchOf base.rules 0 ([.pattern anyLot] ++ .every lotChecks fine :: []) :=
    hrules ▸ ⟨_, _, rfl, rfl, List.mem_singleton_self _⟩
  have hfails : BranchOf base.rules 1
      ([.pattern anyLot] ++ .present (lotChecks.violating fine) :: []) :=
    hrules ▸ ⟨_, _, rfl, rfl, List.mem_singleton_self _⟩
  obtain ⟨n, n', hstands, hstands', -, hall⟩ := complement_of_reached hb hs rfl rfl hpasses hfails
  obtain ⟨node, hn⟩ := hstands.node
  have hnode := Array.all_eq_true_iff_forall_mem.1 hrun node (Array.mem_of_getElem? hn)
  obtain ⟨left, -, hleft⟩ := List.any_eq_true.1 hnode
  obtain ⟨o, ho, hparent⟩ := Option.map_eq_some_iff.1 (of_decide_eq_true hleft)
  have hl : (lotsRun base).matching.LeftOf base.network n left :=
    ⟨node, hn, o, ho, hparent⟩
  obtain ⟨hone, hboth⟩ := hall left hl
  exact ⟨base, hb, hs, n, n', left, hstands, hstands', hl, hone, hboth (.inl nofun)⟩

/-- The latest event. -/
def latest : Pattern := ⟨"ev", none, [], [], some (.length 1)⟩

/-- A universal condition on the latest event, and its negation. -/
def latestFine : Declarations where
  types := [⟨"ev", [("ok", .integer)], .event, none, none⟩]
  rules := [plainRule "every" (.every latest fine),
    plainRule "violated" (.absent (.every latest fine))]
  queries := []

/-- The first event is not fine, and the latest one is. -/
def latestRun (base : RuleBase) : Session :=
  ((start base { Settings.standard with clock := .manual } 0).change
    (.insert ⟨"ev", [("ok", .integer 0)]⟩)).change (.insert ⟨"ev", [("ok", .integer 1)]⟩)

/-- The latest event is fine, but so it is not said: the memory of the negation counts the events that
    are not fine, and the latest one of these is still there. Both conditions pass the empty match. -/
theorem latestRun_both : ∃ base, latestFine.build = .ok base ∧
    Reached base { Settings.standard with clock := .manual } (latestRun base) ∧
    ∃ n n', base.network.Stands base.types 0 [] (.every latest fine) n ∧
      base.network.Stands base.types 1 [] (.present (latest.violating fine)) n' ∧
      (latestRun base).matching.LeftOf base.network n rootToken ∧
      (latestRun base).matching.LeftOf base.network n' rootToken ∧
      (∃ t, (latestRun base).matching.Made n rootToken t .nothing) ∧
      ∃ t, (latestRun base).matching.Made n' rootToken t .nothing := by
  -- every node stands at the top and has passed the empty match
  obtain ⟨base, hb, hrun⟩ := Declarations.build_of_passes latestFine
    (fun base => (base.network.nodes.all fun node => node.parent.isNone) &&
      (List.range base.network.nodes.size).all fun n => [1, 2, 3].any fun t =>
        decide ((latestRun base).matching.origin? t = some ⟨some rootToken, some n, 1, .nothing⟩))
    (by decide +kernel)
  obtain ⟨htop, hmade⟩ := Bool.and_eq_true_iff.1 hrun
  have hrules : base.rules = latestFine.rules := by rw [(Declarations.build_eq hb).2]
  have hs : Reached base { Settings.standard with clock := .manual } (latestRun base) :=
    ((Reached.start 0).change _).change _
  have C := Declarations.carries_build hb
  have hevery : BranchOf base.rules 0 ([] ++ .every latest fine :: []) :=
    hrules ▸ ⟨_, _, rfl, rfl, List.mem_singleton_self _⟩
  have hviolated : BranchOf base.rules 1 ([] ++ .present (latest.violating fine) :: []) :=
    hrules ▸ ⟨_, _, rfl, rfl, List.mem_singleton_self _⟩
  obtain ⟨hsteady, -, -⟩ := hs.steady C.wellFormed
  have hpassed : ∀ {rule e n}, base.network.Stands base.types rule [] e n →
      (latestRun base).matching.LeftOf base.network n rootToken ∧
        ∃ t, (latestRun base).matching.Made n rootToken t .nothing := fun {rule e n} hstands => by
    obtain ⟨node, hn⟩ := hstands.node
    have hparent := Array.all_eq_true_iff_forall_mem.1 htop node (Array.mem_of_getElem? hn)
    have hlt := (Array.getElem?_eq_some_iff.1 hn).1
    obtain ⟨t, -, ht⟩ := List.any_eq_true.1 (List.all_eq_true.1 hmade n (List.mem_range.2 hlt))
    refine ⟨⟨node, hn, ?_⟩, t, 1, of_decide_eq_true ht⟩
    rw [Option.isNone_iff_eq_none.1 hparent]
    exact hsteady.kept.sound.forest.live_root
  obtain ⟨n, hstands⟩ := C.stands hevery
  obtain ⟨n', hstands'⟩ := C.stands hviolated
  exact ⟨base, hb, hs, n, n', hstands, hstands', (hpassed hstands).1, (hpassed hstands').1,
    (hpassed hstands).2, (hpassed hstands').2⟩

end Session

end RuleNet
