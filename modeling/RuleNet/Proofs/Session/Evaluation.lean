/-
  The matches of a session are what plain evaluation finds.

  * `Declarations.SumsIntegers`: sums and averages are of declared integer fields, so that the order
    in which facts come and go does not matter.
  * `Session.Steady.evaluated`: then every steady session is ready for evaluation.
  * `Session.evaluate_of_reached`: where updates are made step by step, the tokens at a terminal hold
    exactly the matches that evaluation of its branch finds.
-/
import RuleNet.Proofs.Matching.Evaluate
import RuleNet.Proofs.Session.Pending

namespace RuleNet

open Matching (Extension contribution)

/-! ## Facts that fit their types -/

theorem FactType.accepts_of_badField? {type : FactType} {fields : Entries Value}
    (h : type.badField? fields = none) {field : String} {kind : FieldType}
    (hk : type.fields.find? field = some kind) {v : Value} (hv : fields.find? field = some v) :
    kind.accepts v = true := by
  induction fields with
  | nil => cases hv
  | cons entry rest ih =>
    obtain ⟨name, w⟩ := entry
    rw [FactType.badField?] at h
    split at h
    · cases h
    · next expected hexpected =>
      split at h
      · next haccepts =>
        rw [Entries.find?] at hv
        split at hv
        · next heq =>
          subst heq
          obtain rfl := Option.some.inj hv
          obtain rfl := Option.some.inj (hexpected.symm.trans hk)
          exact haccepts
        · exact ih h hv
      · cases h

/-- A field of a fact that fits its type holds what is declared, or null. -/
theorem FactType.accepts_of_check {type : FactType} {fact : Fact} (h : type.check fact = .ok ())
    {field : String} {kind : FieldType} (hk : type.fields.find? field = some kind) :
    kind.accepts (fact.value field) = true := by
  unfold FactType.check at h
  split at h
  · cases h
  · next hbad =>
    rw [Fact.value]
    cases hv : fact.fields.find? field with
    | none => cases kind <;> rfl
    | some v => exact accepts_of_badField? hbad hk hv

/-! ## Sums -/

/-- A fold that needs numbers is over a field that the type declares as an integer. -/
def Fold.OfIntegers (fold : Fold) (types : Types) (type : String) : Prop :=
  fold.needsNumbers = true → ∃ declared field, types.find? type = some declared ∧
    fold.field? = some field ∧ declared.fields.find? field = some .integer

/-- The sums and averages of a condition are over integer fields. -/
def Condition.SumsIntegers (c : Condition) (types : Types) : Prop :=
  ∀ acc, .accumulate acc ∈ c.leaves → acc.fold.OfIntegers types acc.source.type

/-- The sums and averages of all rules are over integer fields. -/
def Declarations.SumsIntegers (declarations : Declarations) : Prop :=
  ∀ rule ∈ declarations.rules, rule.condition.SumsIntegers declarations.typesOf

theorem Declarations.folds_build {declarations : Declarations} {base : RuleBase}
    (hb : declarations.build = .ok base) (hsums : declarations.SumsIntegers) :
    base.network.Folds fun type fold => fold.OfIntegers base.types type := by
  have htypes : base.types = declarations.typesOf := by rw [(build_eq hb).2]
  refine (proper_build hb fun rule hrule acc type hacc htype => ?_).folds
  have hname : type.name = acc.source.type :=
    declarations.named_typesOf _ _ (htypes ▸ htype)
  rw [hname, htypes]
  exact hsums rule hrule acc hacc

/-- No double is summed where sums are over integer fields, whatever members the memories have. -/
theorem RuleBase.Conforms.sumsIntegers {base : RuleBase} {store : WorkingMemory} {m : Matching}
    (h : base.Conforms store) (K : Stocked base.network store m)
    (hfolds : base.network.Folds fun type fold => fold.OfIntegers base.types type) {n : NodeId}
    {kind : NodeKind} (hk : base.network.kind? n = some kind) :
    kind.SumsIntegers store m.members := by
  cases kind with
  | accumulate feed fold having =>
    intro hneeds i hi
    obtain ⟨alpha, ha, hQ⟩ := hfolds n feed fold having hk
    obtain ⟨declared, field, hdeclared, hfield, hinteger⟩ := hQ hneeds
    obtain ⟨alpha', entry, ha', he, htype⟩ := K.typed hi
    obtain rfl := Option.some.inj (ha.symm.trans ha')
    obtain ⟨type, hfound, hcheck⟩ := h he
    rw [htype] at hfound
    obtain rfl := Option.some.inj (hdeclared.symm.trans hfound)
    have haccepts := FactType.accepts_of_check hcheck hinteger
    rw [contribution, hfield]
    dsimp only
    rw [WorkingMemory.valueOf, WorkingMemory.fact?_eq he]
    dsimp only
    cases hv : entry.fact.value field with
    | double x =>
      rw [hv] at haccepts
      cases haccepts
    | _ => rfl
  | _ => trivial

namespace Session

variable {s : Session}

/-- No double is summed where sums are over integer fields. -/
theorem Steady.sumsIntegers (h : s.Steady)
    (hfolds : s.network.Folds fun type fold => fold.OfIntegers s.base.types type) {n : NodeId}
    {kind : NodeKind} (hk : s.network.kind? n = some kind) :
    kind.SumsIntegers s.store s.matching.members :=
  RuleBase.Conforms.sumsIntegers h.conforms h.kept.stocked hfolds hk

/-- A steady session can be compared with evaluation, up to results that nothing tells apart. -/
theorem Steady.evaluated (h : s.Steady)
    (hfolds : s.network.Folds fun type fold => fold.OfIntegers s.base.types type)
    {R : Value → Value → Prop} (hrefl : ∀ v, R v v)
    (hagree : ∀ {a b}, s.settings.updatePolicy.agree a b → Option.Rel R a b)
    (hblind : ∀ {n kind}, s.network.kind? n = some kind → kind.Blind R s.store) :
    Evaluated s.network s.store s.due s.matching R where
  sound := h.kept.sound
  idle _ _ hb := hb
  told _ _ hl := hl
  settled _ _ hs := hs
  direct := h.direct
  sums := h.sumsIntegers hfolds
  blind := hblind
  refl := hrefl
  agree := hagree

end Session

/-! ## The same results -/

theorem Option.rel_eq {a b : Option Value} (h : Option.Rel Eq a b) : a = b := by
  cases h with
  | some h => rw [h]
  | none => rfl

theorem Match.eq_of_alike {μ ν : Match} (h : μ.Alike Eq ν) : μ = ν := by
  induction h with
  | nil => rfl
  | @cons e e' _ _ he _ ih =>
    obtain ⟨i, v⟩ := e
    obtain ⟨j, w⟩ := e'
    obtain ⟨rfl, hvalue⟩ := he
    obtain rfl := Option.rel_eq hvalue
    exact congrArg _ ih

theorem NodeKind.blind_eq (kind : NodeKind) (store : WorkingMemory) : kind.Blind Eq store where
  accepts _ _ {μ ν} h _ := by rw [Match.eq_of_alike h]
  admits _ _ _ _ {μ ν} h _ := by rw [Match.eq_of_alike h]
  holds _ _ _ {μ ν} h := by rw [Match.eq_of_alike h]

namespace Session

variable {s : Session}

/-- Where updates are made step by step, the tokens at a terminal hold exactly the matches that
    evaluation of its branch finds, whatever requests and firings led there. -/
theorem evaluate_of_reached {declarations : Declarations} {base : RuleBase} {settings : Settings}
    (hb : declarations.build = .ok base) (hsums : declarations.SumsIntegers)
    (hpolicy : settings.updatePolicy = .stepwise) (hs : Reached base settings s) {τ : TerminalId}
    {terminal : Terminal} (hτ : base.network.terminal? τ = some terminal) (μ : Match) :
    (∃ t, s.matching.LiveAt t terminal.node ∧ s.matching.matchOf t = μ) ↔
      μ ∈ evaluate s.store s.matching.members (base.network.branchOf terminal) := by
  obtain ⟨h, hbase, hset⟩ := hs.steady (Declarations.wellFormed_build hb)
  subst hbase
  have E := h.evaluated (Declarations.folds_build hb hsums) (R := Eq) (fun _ => rfl)
    (fun {a b} hab => by
      rw [hset, hpolicy] at hab
      obtain rfl : a = b := hab
      cases a with
      | none => exact .none
      | some v => exact .some rfl)
    (fun {_ kind} _ => kind.blind_eq s.store)
  have H := E.holds_terminal (Declarations.wellFormed_build hb) hτ
  constructor
  · rintro ⟨t, hlive, rfl⟩
    obtain ⟨ν, hν, halike⟩ := H.sound hlive
    rw [Match.eq_of_alike halike]
    exact hν
  · intro hμ
    obtain ⟨t, hlive, halike⟩ := H.complete hμ
    exact ⟨t, hlive, Match.eq_of_alike halike⟩

/-- Shops whose latest two sales come to a sum, while none of them is recalled. -/
def turnover : Declarations where
  types := [⟨"shop", [("id", .integer)], .fact, none, none⟩,
    ⟨"sale", [("amount", .integer), ("shop", .integer)], .event, none, none⟩,
    ⟨"recall", [("shop", .integer)], .fact, none, none⟩]
  rules := [⟨"turnover", 0, mainGroup, false, false, false,
    .all [.pattern ⟨"shop", some "s", [], [("x", "id")], none⟩,
      .accumulate ⟨⟨"sale", none, [.compare "shop" .equal (.var "x")], [], some (.length 2)⟩,
        .sum "amount", "total", some (.greaterOrEqual, .literal (.integer 6))⟩,
      .absent (.pattern ⟨"recall", none, [.compare "shop" .equal (.var "x")], [], none⟩)],
    fun _ => .done⟩]
  queries := []

theorem sumsIntegers_turnover : turnover.SumsIntegers := by
  intro rule hrule acc hacc hneeds
  obtain rfl := List.mem_singleton.1 hrule
  simp only [Condition.leaves, Condition.leavesOfAll, List.append_nil, List.cons_append,
    List.nil_append, List.mem_cons, List.not_mem_nil, or_false, reduceCtorEq, false_or,
    Condition.accumulate.injEq] at hacc
  subst hacc
  exact ⟨⟨"sale", [("amount", .integer), ("shop", .integer)], .event, none, none⟩, "amount",
    by decide +kernel, rfl, rfl⟩

/-- A shop makes three sales, the last of which is changed and the first of which is taken back. -/
def turnoverRun (base : RuleBase) : Session :=
  ((((((start base { Settings.standard with clock := .manual } 0).change
    (.insert ⟨"shop", [("id", .integer 7)]⟩)).change
    (.insert ⟨"sale", [("amount", .integer 1), ("shop", .integer 7)]⟩)).change
    (.insert ⟨"sale", [("amount", .integer 2), ("shop", .integer 7)]⟩)).change
    (.insert ⟨"sale", [("amount", .integer 3), ("shop", .integer 7)]⟩)).change
    (.update 4 ⟨"sale", [("amount", .integer 5), ("shop", .integer 7)]⟩)).change
    (.retract 2)

/-- The shop is matched with the sum of its latest two sales. -/
theorem evaluate_of_reached_turnoverRun : ∃ base, turnover.build = .ok base ∧
    turnover.SumsIntegers ∧
    Reached base { Settings.standard with clock := .manual } (turnoverRun base) ∧
    ∃ terminal, base.network.terminal? 0 = some terminal ∧
      ∃ t, (turnoverRun base).matching.LiveAt t terminal.node ∧
        (turnoverRun base).matching.matchOf t = [.fact 1, .result (.integer 7), .nothing] := by
  obtain ⟨base, hb, hrun⟩ := Declarations.build_of_passes turnover
    (fun base => (base.network.terminal? 0).any fun terminal =>
      decide ([.fact 1, .result (.integer 7), .nothing] ∈ evaluate (turnoverRun base).store
        (turnoverRun base).matching.members (base.network.branchOf terminal))) (by decide +kernel)
  obtain ⟨terminal, hτ, hmem⟩ := (Option.any_eq_true _ _).1 hrun
  have hs : Reached base { Settings.standard with clock := .manual } (turnoverRun base) :=
    ((((((Reached.start 0).change _).change _).change _).change _).change _).change _
  exact ⟨base, hb, sumsIntegers_turnover, hs, terminal, hτ,
    (evaluate_of_reached hb sumsIntegers_turnover rfl hs hτ _).2 (of_decide_eq_true hmem)⟩

end Session

end RuleNet
