/-
  What branches share does not show.

  A rule finds among others what it finds alone: memories and nodes that rules share, and fields that
  are findable for other rules or for queries, change nothing about its matches.

  * `Declarations.alone`: the declared types and one rule; it builds where the whole builds.
  * `Network.Fits.alike`: nodes of two networks that do what one step asks for do the same.
  * `Session.Mirrored.matched_iff`: rules that have the same branches match the same in sessions with
    related tokens.
  * `Session.matched_alone`: after every change, a rule has matched among others what it has alone.
-/
import RuleNet.Proofs.Query.Matched
import RuleNet.Proofs.Query.Twins
import RuleNet.Proofs.Session.Mirror

namespace RuleNet

/-! ## Rule bases of one rule -/

namespace Assembly

variable {a b : Assembly} {rule : Rule}

theorem labelDefects_of_addRule {place : Nat} (h : (a.addRule rule place).problems = []) :
    a.labelDefects rule = [] := by
  unfold addRule at h
  dsimp only [report] at h
  split at h
  · exact List.map_eq_nil_iff.1 (List.append_eq_nil_iff.1 h).2
  · cases (List.append_eq_nil_iff.1 h).2

/-- A name that is new among some rules is new among fewer. -/
theorem labelDefects_mono (hnames : ∀ name ∈ b.ruleNames, name ∈ a.ruleNames)
    (h : a.labelDefects rule = []) : b.labelDefects rule = [] := by
  unfold labelDefects at h ⊢
  obtain ⟨hname, hgroup⟩ := List.append_eq_nil_iff.1 h
  refine List.append_eq_nil_iff.2 ⟨?_, hgroup⟩
  split at hname
  · cases hname
  · next hblank =>
    split at hname
    · cases hname
    · next hnew =>
      rw [if_neg hblank, if_neg fun hc => hnew ?_]
      exact List.contains_iff_mem.2 (hnames _ (List.contains_iff_mem.1 hc))

/-- A rule with which nothing is wrong can be added where there are fewer rules. -/
theorem problems_addRule {place : Nat} (h : (a.addRule rule place).problems = [])
    (hnone : b.problems = []) (htypes : b.types = a.types)
    (hnames : ∀ name ∈ b.ruleNames, name ∈ a.ruleNames) (place' : Nat) :
    (b.addRule rule place').problems = [] := by
  have hlabel := labelDefects_mono hnames (labelDefects_of_addRule h)
  obtain ⟨branches, hbranches, hadded⟩ := ok_of_bind (addRule_ok h).2
  -- whether a branch compiles does not depend on the network
  obtain ⟨net, hnet⟩ : ∃ net, b.network.addRule b.types place' rule.condition = .ok net := by
    rw [htypes, Network.addRule, hbranches]
    exact Network.addBranches_ok_iff.2 (Network.addBranches_ok_iff.1 ⟨_, hadded⟩)
  unfold addRule
  simp only [report, hlabel, List.map_nil, List.append_nil, hnet, hnone]

theorem addRules_ok (rules : List Rule) {place : Nat} :
    ((rules.zipIdx place).foldl (fun a rule => a.addRule rule.1 rule.2) a).problems = [] →
      a.problems = [] ∧ ∀ rule ∈ rules, ∃ (before : Assembly) (k : Nat), before.types = a.types ∧
        (before.addRule rule k).problems = [] := by
  induction rules generalizing a place with
  | nil => exact fun h => ⟨h, fun rule hr => by cases hr⟩
  | cons rule rest ih =>
    intro h
    obtain ⟨hfirst, hrest⟩ := ih h
    refine ⟨(addRule_ok hfirst).1, fun other hother => ?_⟩
    rcases List.mem_cons.1 hother with rfl | hother
    · exact ⟨a, place, rfl, hfirst⟩
    · obtain ⟨before, k, htypes, hbefore⟩ := hrest other hother
      exact ⟨before, k, htypes.trans (a.types_addRule _ _), hbefore⟩

theorem problems_addQueries (queries : List Query) :
    (queries.foldl addQuery a).problems = [] → a.problems = [] :=
  List.foldlRecOn queries addQuery (motive := fun b => b.problems = [] → a.problems = []) id
    fun _ h _ _ hnone => h (problems_addQuery hnone)

theorem ruleNames_addTypes (types : List FactType) :
    (types.foldl addType .empty).ruleNames = [] :=
  List.foldlRecOn types addType (motive := fun a => a.ruleNames = []) rfl fun a h type _ => by
    unfold addType
    split <;> exact h

end Assembly

namespace Declarations

variable {declarations : Declarations} {base : RuleBase} {rule : Rule}

/-- The declared types with one rule and nothing else. -/
def alone (declarations : Declarations) (rule : Rule) : Declarations :=
  { declarations with rules := [rule], queries := [] }

/-- A rule builds alone if it does among others. -/
theorem build_alone (hb : declarations.build = .ok base) (hrule : rule ∈ declarations.rules) :
    ∃ alone, (declarations.alone rule).build = .ok alone := by
  obtain ⟨hproblems, -⟩ := build_eq hb
  obtain ⟨hnone, hrules⟩ := Assembly.addRules_ok declarations.rules
    (Assembly.problems_addQueries declarations.queries hproblems)
  obtain ⟨before, place, htypes, hbefore⟩ := hrules rule hrule
  have hnames := Assembly.ruleNames_addTypes declarations.types
  have hadded := Assembly.problems_addRule hbefore hnone htypes.symm
    (fun name hname => by rw [hnames] at hname; cases hname) 0
  exact ⟨_, if_pos (List.isEmpty_iff.2 hadded)⟩

/-- Predicates of one mark are the same. -/
def DistinctMarks (declarations : Declarations) : Prop :=
  ∀ rule ∈ declarations.rules, ∀ other ∈ declarations.rules, ∀ p q,
    .predicate p ∈ rule.condition.leaves → .predicate q ∈ other.condition.leaves →
    p.mark = q.mark → p.answer = q.answer

/-- Predicates of branches that are the same one hold in the same cases. -/
theorem DistinctMarks.holds_eq (hmarks : declarations.DistinctMarks) {place place' : Nat}
    {branch branch' : List Element} (hbranch : BranchOf declarations.rules place branch)
    (hbranch' : BranchOf declarations.rules place' branch') {p q : Predicate}
    (hp : .predicate p ∈ branch) (hq : .predicate q ∈ branch') (hsame : p.same q = true) :
    q.holds = p.holds := by
  simp only [Predicate.same, Bool.and_eq_true, beq_iff_eq] at hsame
  obtain ⟨⟨-, hmark⟩, hnegated⟩ := hsame
  obtain ⟨rule, hrule, p', hp', hmarkp, hanswerp⟩ := hbranch.answer hp
  obtain ⟨other, hother, q', hq', hmarkq, hanswerq⟩ := hbranch'.answer hq
  have hanswer : p.answer = q.answer := by
    rw [hanswerp, hanswerq]
    exact hmarks rule hrule other hother p' q' hp' hq' (hmarkp ▸ hmarkq ▸ hmark)
  funext b
  exact (Predicate.holds_of_answer hnegated (congrFun hanswer b)).symm

end Declarations

/-! ## Places that do the same -/

namespace Network

variable {net net' : Network} {sketch : Sketch} {kind kind' : NodeKind}

/-- A fed node that does what a step asks for is of the step's kind. -/
theorem Fits.kind_eq (h : net.Fits sketch kind) {supply : Supply}
    (hs : sketch.supply? = some supply) : ∃ a, kind = sketch.kind a ∧ net.Supplies a supply := by
  obtain ⟨a, hsame, hsupplies⟩ := h
  obtain ⟨feed, hf⟩ : ∃ feed, (sketch.kind a).feed? = some feed := by
    cases sketch with
    | predicate p scope => cases hs
    | _ => exact ⟨_, rfl⟩
  exact ⟨a, (NodeKind.eq_of_same hsame ((NodeKind.feed?_of_same hsame).trans hf)).symm,
    hsupplies supply hs⟩

/-- Nodes of two networks that do what one step asks for do the same. -/
theorem Fits.alike (D : net.Dispatched) (D' : net'.Dispatched) (h : net.Fits sketch kind)
    (h' : net'.Fits sketch kind') (hpredicates : ∀ p q places places',
      kind = .predicate p places → kind' = .predicate q places' → p.same q = true →
      q.holds = p.holds) : kind.Alike (net.LikeAt net') kind' := by
  cases hs : sketch.supply? with
  | some supply =>
    obtain ⟨a, rfl, ha⟩ := h.kind_eq hs
    obtain ⟨b, rfl, hb⟩ := h'.kind_eq hs
    have hfeed : ∀ tests, (Sketch.feed a tests).Alike (net.LikeAt net') (Sketch.feed b tests) :=
      fun tests => ⟨Supplies.like D D' ha hb, rfl, rfl⟩
    cases sketch with
    | join _ tests => exact .join (hfeed tests)
    | absent _ tests => exact .absent (hfeed tests)
    | present _ tests => exact .present (hfeed tests)
    | accumulate _ tests fold having => exact .accumulate (hfeed tests) fold having
    | predicate p places => cases hs
  | none =>
    obtain ⟨a, hfirst, -⟩ := h
    obtain ⟨b, hsecond, -⟩ := h'
    cases sketch with
    | predicate p places =>
      have hsame := NodeKind.same_trans (NodeKind.same_symm hfirst) hsecond
      cases kind <;> cases kind' <;> simp only [Sketch.kind, NodeKind.same, Bool.false_eq_true,
        Bool.and_eq_true, decide_eq_true_eq] at hfirst hsecond hsame
      obtain ⟨hsame, rfl⟩ := hsame
      exact .predicate (hpredicates _ _ _ _ rfl rfl hsame) _
    | _ => cases hs

/-- Nodes of two networks that do what the same steps ask for do the same one by one. -/
theorem Fits.forall₂_alike (D : net.Dispatched) (D' : net'.Dispatched) {steps : List Sketch}
    {kinds kinds' : List NodeKind} (h : List.Forall₂ net.Fits steps kinds)
    (h' : List.Forall₂ net'.Fits steps kinds') (hpredicates : ∀ p q places places',
      .predicate p places ∈ kinds → .predicate q places' ∈ kinds' → p.same q = true →
      q.holds = p.holds) : List.Forall₂ (NodeKind.Alike (net.LikeAt net')) kinds kinds' := by
  induction h generalizing kinds' with
  | nil =>
    cases h'
    exact .nil
  | cons hfits _ ih =>
    cases h' with
    | cons hfits' hrest' =>
      refine .cons (hfits.alike D D' hfits' fun p q places places' hp hq => ?_)
        (ih hrest' fun p q places places' hp hq =>
          hpredicates p q places places' (List.mem_cons_of_mem _ hp) (List.mem_cons_of_mem _ hq))
      exact hpredicates p q places places' (hp ▸ List.mem_cons_self) (hq ▸ List.mem_cons_self)

end Network

namespace Session

section
variable {s s' : Session} {types : Types} (h : s.Mirrored s')
  (hpredicates : ∀ {n n' p q places places'}, s.network.kind? n = some (.predicate p places) →
    s'.network.kind? n' = some (.predicate q places') → p.same q = true → q.holds = p.holds)
include h hpredicates

/-- What tokens bind at the end of a branch is the same in both sessions. -/
theorem Mirrored.binding_iff (D : s.network.Dispatched) (D' : s'.network.Dispatched)
    {branch : List Element} {terminal terminal' : Terminal}
    (hd : s.network.Draws types branch terminal) (hd' : s'.network.Draws types branch terminal')
    (b : Binding) : (∃ t, s.matching.LiveAt t terminal.node ∧
      s.matching.binding s.store terminal.scope t = b) ↔
    ∃ t, s'.matching.LiveAt t terminal'.node ∧
      s'.matching.binding s'.store terminal'.scope t = b := by
  obtain ⟨steps, scope, hsteps, hscope, hfits⟩ := hd.drawn
  obtain ⟨steps', scope', hsteps', hscope', hfits'⟩ := hd'.drawn
  cases hsteps.symm.trans hsteps'
  have halike := Network.Fits.forall₂_alike D D' hfits hfits' fun p q places places' hp hq => by
    obtain ⟨n, hn⟩ := Network.kind?_of_mem_branchOf hp
    obtain ⟨n', hn'⟩ := Network.kind?_of_mem_branchOf hq
    exact hpredicates hn hn'
  rw [Network.branchOf_eq, Network.branchOf_eq] at halike
  obtain ⟨R, M⟩ := h.mirrors
  obtain ⟨hto, hfrom⟩ := M.reach h.wellFormed h.wellFormed' hd.holds hd'.holds halike
  have hbinding : ∀ {t t'}, R t t' → s.matching.LiveAt t terminal.node →
      s'.matching.LiveAt t' terminal'.node →
      s'.matching.binding s'.store terminal'.scope t' =
        s.matching.binding s.store terminal.scope t := by
    rintro t t' hR ⟨o, ho, -⟩ ⟨o', ho', -⟩
    rw [Matching.binding_eq h.wellFormed' M.forest' ho', Matching.binding_eq h.wellFormed M.forest ho,
      M.matched hR ⟨o, ho⟩ ⟨o', ho'⟩, h.store, hscope, hscope']
  constructor
  · rintro ⟨t, ht, rfl⟩
    obtain ⟨t', hR, ht'⟩ := hto t ht
    exact ⟨t', ht', hbinding hR ht ht'⟩
  · rintro ⟨t', ht', rfl⟩
    obtain ⟨t, hR, ht⟩ := hfrom t' ht'
    exact ⟨t, ht, (hbinding hR ht ht').symm⟩

/-- Rules that have the same branches match the same. -/
theorem Mirrored.matched_iff {P P' : Nat → List Element → Prop} (C : s.network.Carries types P)
    (C' : s'.network.Carries types P') {place place' : Nat}
    (hbranches : ∀ branch, P place branch ↔ P' place' branch) (b : Binding) :
    s.Matched place b ↔ s'.Matched place' b := by
  constructor
  · rintro ⟨τ, terminal, t, hτ, rfl, hb⟩
    obtain ⟨branch, hbranch, hd⟩ := C.drawn hτ
    obtain ⟨τ', terminal', hτ', hrule', hd'⟩ := C'.complete ((hbranches branch).1 hbranch)
    obtain ⟨t', hb'⟩ := (h.binding_iff hpredicates C.dispatched C'.dispatched hd hd' b).1 ⟨t, hb⟩
    exact ⟨τ', terminal', t', hτ', hrule', hb'⟩
  · rintro ⟨τ', terminal', t', hτ', rfl, hb'⟩
    obtain ⟨branch, hbranch, hd'⟩ := C'.drawn hτ'
    obtain ⟨τ, terminal, hτ, hrule, hd⟩ := C.complete ((hbranches branch).2 hbranch)
    obtain ⟨t, hb⟩ := (h.binding_iff hpredicates C.dispatched C'.dispatched hd hd' b).2 ⟨t', hb'⟩
    exact ⟨τ, terminal, t, hτ, hrule, hb⟩

end

end Session

/-! ## Runs -/

namespace Session

/-- A rule of a rule base builds alone, and after every change it has matched among the others what
    it has alone. -/
theorem matched_alone {declarations : Declarations} {base : RuleBase}
    (hb : declarations.build = .ok base) (hsums : declarations.SumsIntegers)
    (hmarks : declarations.DistinctMarks) {place : Nat} {rule : Rule}
    (hrule : declarations.rules[place]? = some rule) (settings : Settings) (reading : Moment) :
    ∃ alone, (declarations.alone rule).build = .ok alone ∧
      ∀ (changes : List (Moment × Change)) (b : Binding),
        (changes.foldl changeAt (start base settings reading)).Matched place b ↔
          (changes.foldl changeAt (start alone settings reading)).Matched 0 b := by
  have hmem := List.mem_of_getElem? hrule
  obtain ⟨alone, ha⟩ := Declarations.build_alone hb hmem
  have hsums' : (declarations.alone rule).SumsIntegers := fun other hother => by
    obtain rfl := List.mem_singleton.1 hother
    exact hsums other hmem
  have C := Declarations.carries_build hb
  have C' := Declarations.carries_build ha
  have hfolds := Declarations.folds_build hb hsums
  have hfolds' := Declarations.folds_build ha hsums'
  obtain ⟨-, hbase⟩ := Declarations.build_eq hb
  obtain ⟨-, halone⟩ := Declarations.build_eq ha
  have hrules : base.rules = declarations.rules := by rw [hbase]
  have hrules' : alone.rules = [rule] := by rw [halone]; rfl
  have htypes : alone.types = base.types := by rw [hbase, halone]; rfl
  rw [hrules] at C
  rw [hrules', htypes] at C'
  -- the rule has the same branches in both places
  have hbranches : ∀ branch, BranchOf declarations.rules place branch ↔ BranchOf [rule] 0 branch :=
    fun branch => by
      unfold BranchOf
      rw [hrule]
      rfl
  refine ⟨alone, ha, fun changes b => ?_⟩
  have hnetwork : ∀ base : RuleBase, base.network.WellFormed →
      (changes.foldl changeAt (start base settings reading)).network = base.network := fun base W =>
    congrArg RuleBase.network ((((Reached.start reading).changesAt changes).steady W).2.1)
  have M := Mirrored.together.changesAt (Mirrored.start C.wellFormed C'.wellFormed htypes hfolds hfolds' settings
    reading) changes
  rw [← hnetwork base C.wellFormed] at C
  rw [← hnetwork alone C'.wellFormed] at C'
  refine M.matched_iff (fun {n n' p q places places'} hp hq hsame => ?_) C C' hbranches b
  obtain ⟨k, branch, hbranch, hp⟩ := C.asked hp
  obtain ⟨k', branch', ⟨other, branches, hother, hnormal, hin⟩, hq⟩ := C'.asked hq
  obtain rfl := List.mem_singleton.1 (List.mem_of_getElem? hother)
  exact hmarks.holds_eq hbranch ⟨other, branches, hrule, hnormal, hin⟩ hp hq hsame

/-- Shops whose sales of the last five seconds come to six or more, whether they are recalled or not,
    beside those that are not recalled, which a query asks for too. -/
def sellers : Declarations :=
  { bestsellers with rules := ⟨"seller", 0, mainGroup, false, false, false,
      .all [.pattern ⟨"shop", some "s", [], [("x", "id")], none⟩,
        .accumulate ⟨⟨"sale", none, [.compare "shop" .equal (.var "x")], [],
          some (.time ⟨5000000000⟩)⟩, .sum "amount", "total",
          some (.greaterOrEqual, .literal (.integer 6))⟩],
      fun _ => .done⟩ :: bestsellers.rules }

/-- A shop makes three sales, the first of which is too old in the end. -/
def sellersChanges : List (Moment × Change) :=
  [(0, .insert ⟨"shop", [("id", .integer 7)]⟩),
    (1000, .insert ⟨"sale", [("amount", .integer 4), ("shop", .integer 7)]⟩),
    (3000, .insert ⟨"sale", [("amount", .integer 5), ("shop", .integer 7)]⟩),
    (7000, .insert ⟨"sale", [("amount", .integer 2), ("shop", .integer 7)]⟩)]

theorem sumsIntegers_sellers : sellers.SumsIntegers := by
  intro rule hrule acc hacc hneeds
  rcases List.mem_cons.1 hrule with rfl | hrule
  · simp only [Condition.leaves, Condition.leavesOfAll, List.append_nil, List.cons_append,
      List.nil_append, List.mem_cons, List.not_mem_nil, or_false, reduceCtorEq, false_or,
      Condition.accumulate.injEq] at hacc
    subst hacc
    exact ⟨⟨"sale", [("amount", .integer), ("shop", .integer)], .event, none, some ⟨60000000000⟩⟩,
      "amount", by decide +kernel, rfl, rfl⟩
  · exact sumsIntegers_bestsellers rule hrule acc hacc hneeds

theorem distinctMarks_sellers : sellers.DistinctMarks := by
  intro rule hrule other hother p q hp hq _
  have hleaf : ∀ {rule p}, rule ∈ sellers.rules → .predicate p ∈ rule.condition.leaves →
      p = ⟨"plain", 0, false, fun b => b.values.length == 2⟩ := fun {rule p} hrule hp => by
    rcases List.mem_cons.1 hrule with rfl | hrule
    · simp [Condition.leaves, Condition.leavesOfAll] at hp
    · obtain rfl := List.mem_singleton.1 hrule
      simpa [bestseller, Condition.leaves, Condition.leavesOfAll] using hp
  rw [hleaf hrule hp, hleaf hother hq]

/-- The shop is found by the rule alone as it is beside the other one. -/
theorem matched_alone_sellers : ∃ base rule alone, sellers.build = .ok base ∧
    sellers.SumsIntegers ∧ sellers.DistinctMarks ∧ sellers.rules[1]? = some rule ∧
    (sellers.alone rule).build = .ok alone ∧
    ∃ b : Binding, b.values = [("total", .integer 7), ("x", .integer 7)] ∧
      (sellersChanges.foldl changeAt (start base .standard 0)).Matched 1 b ∧
      (sellersChanges.foldl changeAt (start alone .standard 0)).Matched 0 b := by
  obtain ⟨base, hb, hrun⟩ := Declarations.build_of_passes sellers
    (fun base => decide (
      ((sellersChanges.foldl changeAt (start base .standard 0)).agenda.pending.map fun a =>
        (a.rule, a.binding.values)) =
      [(0, [("total", .integer 7), ("x", .integer 7)]), (1, [("total", .integer 7), ("x", .integer 7)]),
        (1, [("total", .integer 7), ("x", .integer 7)])])) (by decide +kernel)
  replace hrun := of_decide_eq_true hrun
  obtain ⟨rule, hrule⟩ : ∃ rule, sellers.rules[1]? = some rule := ⟨_, rfl⟩
  obtain ⟨alone, ha, hmatched⟩ :=
    matched_alone hb sumsIntegers_sellers distinctMarks_sellers hrule .standard 0
  obtain ⟨a, hpending, heq⟩ : ∃ a ∈ (sellersChanges.foldl changeAt
      (start base .standard 0)).agenda.pending, (a.rule, a.binding.values) =
        (1, [("total", .integer 7), ("x", .integer 7)]) := by
    rw [← List.mem_map, hrun]
    exact List.mem_cons_of_mem _ List.mem_cons_self
  have hfound := ((((Reached.start 0).changesAt sellersChanges).steady
    (Declarations.wellFormed_build hb)).1).matched_of_pending hpending
  rw [Prod.mk.injEq] at heq
  rw [heq.1] at hfound
  exact ⟨base, rule, alone, hb, sumsIntegers_sellers, distinctMarks_sellers, hrule, ha, a.binding,
    heq.2, hfound, (hmatched _ _).1 hfound⟩

end Session

end RuleNet
