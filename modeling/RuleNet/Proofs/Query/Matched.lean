/-
  A rule and a query of one condition find the same.

  * `Session.Matched`: what the live tokens at the terminals of a rule bind.
  * `Session.Timely.plain`: where no live fact is overdue, queries leave out no member of a memory.
  * `Declarations.PlainPredicates`: predicates are known by their marks, and read no more than
    variables.
  * `Session.Steady.matched_iff`: what a rule matches is what evaluation finds, up to signs of zeros.
  * `Session.queryRows_eq_matched`: the rows of a query are what a rule of the same condition matches.
-/
import RuleNet.Proofs.Query.Planned
import RuleNet.Proofs.Session.Policies
import RuleNet.Proofs.Session.Timely

namespace RuleNet

/-! ## Predicates -/

/-- What the predicate that a mark stands for answers, whatever the sense in which it is asked. -/
def Predicate.answer (p : Predicate) (b : Binding) : Bool := p.holds b != p.negated

theorem Predicate.answer_negate (p : Predicate) : p.negate.answer = p.answer := by
  funext b
  show ((!p.holds b) != (!p.negated)) = (p.holds b != p.negated)
  cases p.holds b <;> cases p.negated <;> rfl

/-- Predicates that answer the same and are asked in one sense hold in the same cases. -/
theorem Predicate.holds_of_answer {p q : Predicate} {b b' : Binding}
    (hnegated : p.negated = q.negated) (h : p.answer b = q.answer b') : p.holds b = q.holds b' := by
  rw [answer, answer, hnegated] at h
  exact Bool.bne_left_inj.1 h

/-- A predicate in a branch answers what a predicate of the condition does that has its mark. -/
theorem BranchOf.answer {rules : List Rule} {place : Nat} {branch : List Element}
    (h : BranchOf rules place branch) {p : Predicate} (hp : .predicate p ∈ branch) :
    ∃ rule ∈ rules, ∃ q, .predicate q ∈ rule.condition.leaves ∧ p.mark = q.mark ∧
      p.answer = q.answer := by
  obtain ⟨rule, hrule, q, hq, rfl | rfl⟩ := h.predicate hp
  · exact ⟨rule, hrule, p, hq, rfl, rfl⟩
  · exact ⟨rule, hrule, q, hq, rfl, q.answer_negate⟩

/-- Predicates of one mark are the same, and they read no more of a binding than its variables. -/
def Declarations.PlainPredicates (declarations : Declarations) : Prop :=
  ∀ rule ∈ declarations.rules, ∀ other ∈ declarations.rules, ∀ p q,
    .predicate p ∈ rule.condition.leaves → .predicate q ∈ other.condition.leaves →
    p.mark = q.mark → ∀ b b' : Binding, b.facts = b'.facts → b.values = b'.values →
      p.answer b = q.answer b'

/-- A predicate of a branch is answered by the same predicate at a node. -/
theorem Declarations.answeredBy {declarations : Declarations}
    (hplain : declarations.PlainPredicates) {place place' : Nat} {branch branch' : List Element}
    (hbranch : BranchOf declarations.rules place branch)
    (hbranch' : BranchOf declarations.rules place' branch') {p q : Predicate}
    (hp : .predicate p ∈ branch) (hq : .predicate q ∈ branch') (hsame : p.same q = true) :
    p.AnsweredBy q := by
  simp only [Predicate.same, Bool.and_eq_true, beq_iff_eq] at hsame
  obtain ⟨⟨-, hmark⟩, hnegated⟩ := hsame
  obtain ⟨rule, hrule, p', hp', hmarkp, hanswerp⟩ := hbranch.answer hp
  obtain ⟨other, hother, q', hq', hmarkq, hanswerq⟩ := hbranch'.answer hq
  intro b b' hfacts hvalues
  refine Predicate.holds_of_answer hnegated ?_
  rw [hanswerp, hanswerq]
  exact hplain rule hrule other hother p' q' hp' hq' (hmarkp ▸ hmarkq ▸ hmark) b b' hfacts hvalues

/-! ## Rows and bindings -/

/-- The row with a positive zero in place of every negative one. -/
def Row.unsigned (row : Row) : Row :=
  { row with values := row.values.map fun entry => (entry.1, entry.2.unsigned) }

/-- The variables of a binding. -/
def Binding.row (b : Binding) : Row := ⟨b.facts, b.values⟩

/-- Nothing is overdue while all deadlines lie ahead. -/
theorem ExpirySchedule.isExpired_of_all {schedule : ExpirySchedule} {now : Moment}
    (h : (schedule.deadlines.toList.all fun deadline => decide (now < deadline.2)) = true)
    (i : Handle) : schedule.isExpired i now = false := by
  unfold isExpired
  split
  · next deadline hdeadline =>
    have hahead := List.all_eq_true.1 h (i, deadline) (mem_toList.2 hdeadline)
    exact decide_eq_false (Int.not_le.2 (of_decide_eq_true hahead))
  · rfl

namespace Session

variable {s : Session}

/-! ## What queries read -/

/-- Where no live fact is overdue, queries leave out no member of a memory. -/
theorem Timely.plain (h : s.Timely) (A : s.Abreast s) (D : s.network.Dispatched)
    (hlive : ∀ i, s.store.contains i = true → s.expiry.isExpired i s.now = false) :
    s.queryView.Plain where
  stocked := h.steady.kept.stocked
  current {a i} hi := by
    obtain ⟨alpha, entry, ha, he, -⟩ := h.steady.kept.stocked.typed hi
    simp only [QueryView.isCurrent, queryView, ha, Option.bind_some,
      hlive i (WorkingMemory.contains_iff.2 ⟨entry, he⟩), Bool.not_false, Bool.true_and]
    split
    · next length hwindow =>
      obtain ⟨entry', he', -, hcovers⟩ := h.files ha hwindow i hi
      rw [WorkingMemory.moment?, he']
      exact hcovers
    · rfl
  alike {a b supply} ha hb := by
    obtain ⟨alpha, beta, ha', hb', hlike⟩ := Network.Supplies.like D D ha hb
    exact congrArg Shelf.facts (A.shelf ha' hb' hlike)

/-! ## What rules match -/

/-- Results that may stand under a policy differ in the signs of zeros at most; where updates are made
    step by step they are the same, so it does not matter what predicates see. -/
theorem Steady.holds_unsigned (h : s.Steady) (W : s.network.WellFormed)
    (hfolds : s.network.Folds fun type fold => fold.OfIntegers s.base.types type)
    (hblind : s.settings.updatePolicy = .coalesce → ∀ {n kind}, s.network.kind? n = some kind →
      kind.Blind Value.SameUnsigned s.store) {τ : TerminalId} {terminal : Terminal}
    (hτ : s.network.terminal? τ = some terminal) :
    s.matching.Holds Value.SameUnsigned terminal.node
      (evaluate s.store s.matching.members (s.network.branchOf terminal)) := by
  cases hpolicy : s.settings.updatePolicy with
  | stepwise =>
    have E := h.evaluated hfolds (R := Eq) (fun _ => rfl)
      (fun {a b} hab => by
        rw [hpolicy] at hab
        obtain rfl : a = b := hab
        cases a with
        | none => exact .none
        | some v => exact .some rfl)
      (fun {_ kind} _ => kind.blind_eq s.store)
    exact (E.holds_terminal W hτ).imp fun {v w} hvw => congrArg Value.unsigned hvw
  | coalesce =>
    have E := h.evaluated hfolds (R := Value.SameUnsigned) (fun _ => rfl)
      (UpdatePolicy.rel_of_agree _) (hblind hpolicy)
    exact E.holds_terminal W hτ

/-! ## Rows and matches -/

section
variable {types : Types} {P : Nat → List Element → Prop} (hplain : s.queryView.Plain)
  (hsums : ∀ {n kind}, s.network.kind? n = some kind → kind.SumsIntegers s.store s.matching.members)
include hplain hsums

/-- The rows of a branch are the variables of its matches. -/
theorem rows_eq_evaluate {branch : List Element} {terminal : Terminal} {steps : List PlanStep}
    (hdraws : s.network.Draws types branch terminal)
    (houtlines : s.network.Outlines types branch steps)
    (hpredicates : ∀ p q n places, .predicate p ∈ branch →
      s.network.kind? n = some (.predicate q places) → p.same q = true → p.AnsweredBy q) :
    s.queryView.rows steps ⟨[], []⟩ =
      (evaluate s.store s.matching.members (s.network.branchOf terminal)).map fun μ =>
        (μ.binding s.store terminal.scope).row := by
  obtain ⟨sketched, scope, hsketched, hscope, hfits⟩ := hdraws.drawn
  obtain ⟨found, hfound, hlays⟩ := houtlines
  obtain ⟨sketched', scope', hsketched', htwins⟩ := sketches_of_outlines (Scope.regular_nil 0) hfound
  cases hsketched.symm.trans hsketched'
  have hrows := hplain.rows_eq htwins hfits hlays (Scope.regular_nil 0)
    (fun kind hk => by
      obtain ⟨n, hn⟩ := Network.kind?_of_mem_branchOf hk
      exact hsums hn)
    (fun p q places places' hp hq => by
      obtain ⟨n, hn⟩ := Network.kind?_of_mem_branchOf hq
      exact hpredicates p q n places' (predicate_of_sketches hsketched hp) hn)
    [[]] fun μ hμ => by
      obtain rfl := List.mem_singleton.1 hμ
      rfl
  rw [List.flatMap_singleton] at hrows
  rw [hscope]
  exact hrows

/-- The rows of a plan are the variables of the matches of a rule, if both come from one condition. -/
theorem mem_allRows (C : s.network.Carries types P) {query : Query} {plan : Plan}
    (hanswers : s.network.Answers types query plan) (rule : Nat)
    (hbranches : ∀ {branches}, query.condition.normalize = .ok branches →
      ∀ branch, P rule branch ↔ branch ∈ branches)
    (hpredicates : ∀ p q n places branch, P rule branch → .predicate p ∈ branch →
      s.network.kind? n = some (.predicate q places) → p.same q = true → p.AnsweredBy q)
    (row : Row) :
    row ∈ s.queryView.allRows plan [] ↔ ∃ τ terminal, s.network.terminal? τ = some terminal ∧
      terminal.rule = rule ∧
      ∃ μ ∈ evaluate s.store s.matching.members (s.network.branchOf terminal),
        (μ.binding s.store terminal.scope).row = row := by
  obtain ⟨branches, hnormal, hplans⟩ := hanswers.branches
  have hall := hbranches hnormal
  have hinitial : QueryView.initialRow plan [] = ⟨[], []⟩ := by
    rw [QueryView.initialRow, hanswers.parameters]
    rfl
  rw [QueryView.allRows, List.mem_flatMap, hinitial]
  have hrows : ∀ {branch terminal steps}, branch ∈ branches → s.network.Draws types branch terminal →
      s.network.Outlines types branch steps → (row ∈ s.queryView.rows steps ⟨[], []⟩ ↔
        ∃ μ ∈ evaluate s.store s.matching.members (s.network.branchOf terminal),
          (μ.binding s.store terminal.scope).row = row) := fun {branch _ _} hb hdraws houtlines => by
    rw [rows_eq_evaluate hplain hsums hdraws houtlines fun p q n places =>
      hpredicates p q n places branch ((hall branch).2 hb), List.mem_map]
  constructor
  · rintro ⟨steps, hsteps, hrow⟩
    obtain ⟨branch, hbranch, houtlines⟩ := forall₂_mem_right hplans hsteps
    obtain ⟨τ, terminal, hτ, hrule, hdraws⟩ := C.complete ((hall branch).2 hbranch)
    exact ⟨τ, terminal, hτ, hrule, (hrows hbranch hdraws houtlines).1 hrow⟩
  · rintro ⟨τ, terminal, hτ, rfl, hμ⟩
    obtain ⟨branch, hP, hdraws⟩ := C.drawn hτ
    have hbranch := (hall branch).1 hP
    obtain ⟨steps, hsteps, houtlines⟩ := forall₂_mem_right hplans.flip hbranch
    exact ⟨steps, hsteps, (hrows hbranch hdraws houtlines).2 hμ⟩

end

/-- A condition compiles as the body of a rule exactly where it compiles as the body of a query without
    parameters. Where a rule base has both, and no live fact is overdue by the manual clock, the rows of
    the query are what the live tokens of the rule bind, up to the signs of zeros; where updates are
    coalesced, predicates must not tell these signs apart. -/
theorem queryRows_eq_matched {declarations : Declarations} {base : RuleBase}
    (hb : declarations.build = .ok base) (hsums : declarations.SumsIntegers)
    (hplain : declarations.PlainPredicates) {place : Nat} {rule : Rule}
    (hrule : declarations.rules[place]? = some rule) {query : Query}
    (hquery : query ∈ declarations.queries) (hparams : query.parameters = [])
    (hcondition : query.condition = rule.condition) {settings : Settings}
    (hclock : settings.clock = .manual)
    (hblind : settings.updatePolicy = .coalesce → declarations.SignBlind)
    (hs : Reached base settings s)
    (hlive : ∀ i, s.store.contains i = true → s.expiry.isExpired i s.now = false) :
    (∀ (types : Types) (condition : Condition) (net net' : Network) (place : Nat) (name : String),
      (∃ compiled, net.addRule types place condition = .ok compiled) ↔
        ∃ compiled, Plan.compile types net' ⟨name, [], condition⟩ = .ok compiled) ∧
    ∃ rows, s.query query.name [] = .ok rows ∧ ∀ row : Row,
      (∃ found ∈ rows, found.unsigned = row) ↔ ∃ b, s.Matched place b ∧ b.row.unsigned = row := by
  refine ⟨fun types condition net net' place name =>
    compiles_iff types net net' place name condition, ?_⟩
  have W := Declarations.wellFormed_build hb
  obtain ⟨hsteady, hbase, hset⟩ := hs.steady W
  have C := Declarations.carries_build hb
  have hfolds := Declarations.folds_build hb hsums
  obtain ⟨plan, hplan, hanswers⟩ := Declarations.answers_build hb hquery hparams
  have hrules : base.rules = declarations.rules := by rw [(Declarations.build_eq hb).2]
  rw [hrules] at C
  subst hbase
  have hview := (hs.timely W hclock).plain (hs.abreast W) C.dispatched hlive
  have hmem := mem_allRows hview (hsteady.sumsIntegers hfolds) C hanswers place
    (fun {branches} hnormal branch => by
      rw [hcondition] at hnormal
      constructor
      · rintro ⟨rule', branches', hrule', hbranches', hbranch⟩
        cases hrule.symm.trans hrule'
        cases hnormal.symm.trans hbranches'
        exact hbranch
      · exact fun hbranch => ⟨rule, branches, hrule, hnormal, hbranch⟩)
    fun p q n places branch hP hp hk hsame => by
      obtain ⟨place', branch', hP', hq⟩ := C.asked hk
      exact Declarations.answeredBy hplain hP hP' hp hq hsame
  have hmatched := hsteady.matched_iff W (fun hτ => hsteady.holds_unsigned W hfolds
    (fun hpolicy n kind hk => Declarations.blind_build hb (hblind (hset ▸ hpolicy)) hk s.store) hτ)
    place
  have hquery : s.query query.name [] = .ok (s.queryView.allRows plan []) := by
    have hplan' : s.plan query.name [] = .ok plan := by
      rw [Session.plan, hplan]
      exact if_pos (congrArg List.length hanswers.parameters)
    rw [Session.query, hplan']
    rfl
  refine ⟨_, hquery, fun row => ?_⟩
  constructor
  · rintro ⟨found, hfound, rfl⟩
    obtain ⟨τ, terminal, hτ, hrule, μ, hμ, rfl⟩ := (hmem found).1 hfound
    obtain ⟨b, hb, hunsigned⟩ := (hmatched _).2 ⟨τ, terminal, hτ, hrule, μ, hμ, rfl⟩
    exact ⟨b, hb, congrArg Binding.row hunsigned⟩
  · rintro ⟨b, hb, rfl⟩
    obtain ⟨τ, terminal, hτ, hrule, μ, hμ, hunsigned⟩ := (hmatched _).1 ⟨b, hb, rfl⟩
    exact ⟨_, (hmem _).2 ⟨τ, terminal, hτ, hrule, μ, hμ, rfl⟩, congrArg Binding.row hunsigned⟩

/-- Shops whose sales of the last five seconds come to six or more, unless they are recalled; shops of
    which no more is known than that are found in any case. -/
def bestseller : Condition :=
  .all [.pattern ⟨"shop", some "s", [], [("x", "id")], none⟩,
    .accumulate ⟨⟨"sale", none, [.compare "shop" .equal (.var "x")], [], some (.time ⟨5000000000⟩)⟩,
      .sum "amount", "total", some (.greaterOrEqual, .literal (.integer 6))⟩,
    .any [.absent (.pattern ⟨"recall", none, [.compare "shop" .equal (.var "x")], [], none⟩),
      .predicate ⟨"plain", 0, false, fun b => b.values.length == 2⟩]]

def bestsellers : Declarations where
  types := [⟨"shop", [("id", .integer)], .fact, none, none⟩,
    ⟨"sale", [("amount", .integer), ("shop", .integer)], .event, none, some ⟨60000000000⟩⟩,
    ⟨"recall", [("shop", .integer)], .fact, none, none⟩]
  rules := [⟨"bestseller", 0, mainGroup, false, false, false, bestseller, fun _ => .done⟩]
  queries := [⟨"bestsellers", [], bestseller⟩]

/-- A shop makes three sales, the first of which is too old in the end, and the shop is recalled. -/
def bestsellersRun (base : RuleBase) : Session :=
  (((((((start base { Settings.standard with clock := .manual } 0).change
    (.insert ⟨"shop", [("id", .integer 7)]⟩)).change
    (.insert ⟨"sale", [("amount", .integer 4), ("shop", .integer 7)]⟩)).change
    (.advance ⟨3000000000⟩)).change
    (.insert ⟨"sale", [("amount", .integer 5), ("shop", .integer 7)]⟩)).change
    (.advance ⟨3000000000⟩)).change
    (.insert ⟨"sale", [("amount", .integer 2), ("shop", .integer 7)]⟩)).change
    (.insert ⟨"recall", [("shop", .integer 7)]⟩)

theorem sumsIntegers_bestsellers : bestsellers.SumsIntegers := by
  intro rule hrule acc hacc hneeds
  obtain rfl := List.mem_singleton.1 hrule
  simp only [bestseller, Condition.leaves, Condition.leavesOfAll, List.append_nil, List.cons_append,
    List.nil_append, List.mem_cons, List.not_mem_nil, or_false, reduceCtorEq, false_or,
    Condition.accumulate.injEq] at hacc
  subst hacc
  exact ⟨⟨"sale", [("amount", .integer), ("shop", .integer)], .event, none, some ⟨60000000000⟩⟩,
    "amount", by decide +kernel, rfl, rfl⟩

theorem plainPredicates_bestsellers : bestsellers.PlainPredicates := by
  intro rule hrule other hother p q hp hq _ b b' _ hvalues
  obtain rfl := List.mem_singleton.1 hrule
  obtain rfl := List.mem_singleton.1 hother
  simp only [bestseller, Condition.leaves, Condition.leavesOfAll, List.append_nil, List.cons_append,
    List.nil_append, List.mem_cons, List.not_mem_nil, or_false, reduceCtorEq, false_or,
    Condition.predicate.injEq] at hp hq
  subst hp hq
  show ((b.values.length == 2) != false) = ((b'.values.length == 2) != false)
  rw [hvalues]

/-- The shop is found with the sum of its latest two sales. -/
theorem queryRows_eq_matched_bestsellersRun : ∃ base, bestsellers.build = .ok base ∧
    bestsellers.SumsIntegers ∧ bestsellers.PlainPredicates ∧
    Reached base { Settings.standard with clock := .manual } (bestsellersRun base) ∧
    (∀ i, (bestsellersRun base).store.contains i = true →
      (bestsellersRun base).expiry.isExpired i (bestsellersRun base).now = false) ∧
    (bestsellersRun base).query "bestsellers" [] =
      .ok [⟨[("s", 1)], [("total", .integer 7), ("x", .integer 7)]⟩] ∧
    ∃ b, (bestsellersRun base).Matched 0 b ∧
      b.row.unsigned = ⟨[("s", 1)], [("total", .integer 7), ("x", .integer 7)]⟩ := by
  obtain ⟨base, hb, hrun⟩ := Declarations.build_of_passes bestsellers
    (fun base => ((bestsellersRun base).expiry.deadlines.toList.all fun deadline =>
        decide ((bestsellersRun base).now < deadline.2)) &&
      decide ((bestsellersRun base).query "bestsellers" [] =
        .ok [⟨[("s", 1)], [("total", .integer 7), ("x", .integer 7)]⟩])) (by decide +kernel)
  rw [Bool.and_eq_true, decide_eq_true_eq] at hrun
  obtain ⟨hdeadlines, hrows⟩ := hrun
  have hs : Reached base { Settings.standard with clock := .manual } (bestsellersRun base) :=
    (((((((Reached.start 0).change _).change _).change _).change _).change _).change _).change _
  have hlive : ∀ i, (bestsellersRun base).store.contains i = true →
      (bestsellersRun base).expiry.isExpired i (bestsellersRun base).now = false :=
    fun i _ => ExpirySchedule.isExpired_of_all hdeadlines i
  have hrule : bestsellers.rules[0]? =
      some ⟨"bestseller", 0, mainGroup, false, false, false, bestseller, fun _ => .done⟩ := rfl
  have hquery : (⟨"bestsellers", [], bestseller⟩ : Query) ∈ bestsellers.queries :=
    List.mem_singleton_self _
  obtain ⟨-, rows, hasked, hmatched⟩ := queryRows_eq_matched hb sumsIntegers_bestsellers
    plainPredicates_bestsellers hrule hquery rfl rfl (by rfl) (fun h => by cases h) hs hlive
  refine ⟨base, hb, sumsIntegers_bestsellers, plainPredicates_bestsellers, hs, hlive, hrows, ?_⟩
  cases hasked.symm.trans hrows
  exact (hmatched _).1 ⟨_, List.mem_singleton_self _, rfl⟩

/-- The lowest reading has changed to negative zero by a coalesced update. -/
def sunkenRun (base : RuleBase) : Session :=
  lowestChanges.foldl changeAt
    (start base { Settings.standard with clock := .manual, updatePolicy := .coalesce } 0)

theorem plainPredicates_sunkens : sunkens.PlainPredicates := by
  intro rule hrule other hother p q hp hq _ b b' _ hvalues
  obtain rfl := List.mem_singleton.1 hrule
  obtain rfl := List.mem_singleton.1 hother
  simp only [sunken, Condition.leaves, Condition.leavesOfAll, List.append_nil, List.cons_append,
    List.nil_append, List.mem_cons, List.not_mem_nil, or_false, reduceCtorEq, false_or,
    Condition.predicate.injEq] at hp hq
  subst hp hq
  show (decide (b.values = _) != false) = (decide (b'.values = _) != false)
  rw [hvalues]

/-- Where a predicate sees the sign of a zero, a query evaluates anew what a coalesced update has left as
    it was, and finds a row that no live token of the rule binds. -/
theorem queryRows_eq_matched_sunkenRun : ∃ base, sunkens.build = .ok base ∧
    sunkens.SumsIntegers ∧ sunkens.PlainPredicates ∧
    Reached base { Settings.standard with clock := .manual, updatePolicy := .coalesce }
      (sunkenRun base) ∧
    (∀ i, (sunkenRun base).store.contains i = true →
      (sunkenRun base).expiry.isExpired i (sunkenRun base).now = false) ∧
    (sunkenRun base).query "sunken" [] = .ok [⟨[], [("low", .double Binary64.zero.neg)]⟩] ∧
    (∀ b, ¬ (sunkenRun base).Matched 0 b) ∧
    ¬ ∃ rows, (sunkenRun base).query "sunken" [] = .ok rows ∧ ∀ row : Row,
      (∃ found ∈ rows, found.unsigned = row) ↔
        ∃ b, (sunkenRun base).Matched 0 b ∧ b.row.unsigned = row := by
  obtain ⟨base, hb, hrun⟩ := Declarations.build_of_passes sunkens
    (fun base => ((sunkenRun base).expiry.deadlines.toList.all fun deadline =>
        decide ((sunkenRun base).now < deadline.2)) &&
      decide ((sunkenRun base).query "sunken" [] =
        .ok [⟨[], [("low", .double Binary64.zero.neg)]⟩] ∧
        (sunkenRun base).agenda.pending = [])) (by decide +kernel)
  rw [Bool.and_eq_true, decide_eq_true_eq] at hrun
  obtain ⟨hdeadlines, hrows, hidle⟩ := hrun
  -- nothing has fired, so that nothing is matched where nothing waits
  have hnone : ∀ b, ¬ (sunkenRun base).Matched 0 b := fun b hmatched => by
    have hready : (sunkenRun base).Ready := (ready_start hb _ 0).changesAt lowestChanges
    obtain ⟨a, ha, -⟩ := (hready.pending_iff 0 b).2 hmatched
    rw [hidle] at ha
    cases ha
  refine ⟨base, hb, sumsIntegers_sunkens, plainPredicates_sunkens,
    (Reached.start 0).changesAt lowestChanges, fun i _ => ExpirySchedule.isExpired_of_all hdeadlines i,
    hrows, hnone, ?_⟩
  rintro ⟨rows, hasked, hall⟩
  cases hasked.symm.trans hrows
  obtain ⟨b, hb, -⟩ := (hall _).1 ⟨_, List.mem_singleton_self _, rfl⟩
  exact hnone b hb

end Session

end RuleNet
