/-
  What predicates are asked about in a query and in a rule.

  A rule asks a predicate about the match of a token, a query asks it about a row. After the same facts
  both bind the same variables. The list of facts is not the same: a rule lists all of them in the order
  of the patterns, a query lists those that have a name, in the order of the names.

  * `Binding.Beside`: the two bindings.
  * `Binding.Beside.handles_eq`, `Binding.Beside.ascending`: when they list the same facts.
  * `Network.Stands.predicate`, `Network.Outlines.predicate`: the node and the step of a predicate.
  * `Session.asked_of_reached`: the bindings of a rule and of a query for one condition.
-/
import RuleNet.Proofs.Query.Matched
import RuleNet.Proofs.Query.Named

namespace RuleNet

open Matching (Extension)

/-! ## Facts by name -/

/-- All facts have names, which ascend. -/
def Ascending (vars : List (Option String)) : Prop :=
  ∃ names : List String, vars = names.map some ∧ names.Pairwise fun a b => compare a b = .lt

theorem namedFacts_map_some (names : List String) (chosen : List Handle) :
    namedFacts (names.map some) chosen = names.zip chosen := by
  induction names generalizing chosen with
  | nil => rfl
  | cons name names ih =>
    cases chosen with
    | nil => rfl
    | cons h chosen => exact congrArg ((name, h) :: ·) (ih chosen)

/-- Facts without a name are missing. -/
theorem length_namedFacts {vars : List (Option String)} {chosen : List Handle}
    (h : chosen.length = vars.length) :
    (namedFacts vars chosen).length + vars.count none = vars.length := by
  induction vars generalizing chosen with
  | nil => rfl
  | cons var vars ih =>
    cases chosen with
    | nil => cases h
    | cons i chosen =>
      have hrest := ih (Nat.succ.inj h)
      cases var with
      | none =>
        show (namedFacts vars chosen).length + _ = _
        rw [List.count_cons_self, List.length_cons]
        omega
      | some name =>
        show (namedFacts vars chosen).length + 1 + _ = _
        rw [List.count_cons_of_ne (by simp), List.length_cons]
        omega

theorem exists_names {vars : List (Option String)} (h : none ∉ vars) :
    ∃ names : List String, vars = names.map some := by
  induction vars with
  | nil => exact ⟨[], rfl⟩
  | cons var vars ih =>
    rw [List.mem_cons, not_or] at h
    obtain ⟨names, rfl⟩ := ih h.2
    cases var with
    | none => exact absurd rfl h.1
    | some name => exact ⟨name :: names, rfl⟩

/-- Lists of the same members that some function tells apart stand in one order if their images do. -/
theorem eq_of_perm_of_map {α β : Type} {f : α → β} {l l' : List α} (h : l.Perm l')
    (hmap : l.map f = l'.map f) (hnodup : (l.map f).Nodup) : l = l' := by
  refine List.ext_getElem h.length_eq fun i hi hi' => ?_
  have hat : (l.map f)[i]? = (l'.map f)[i]? := by rw [hmap]
  rw [List.getElem?_map, List.getElem?_map, List.getElem?_eq_getElem hi,
    List.getElem?_eq_getElem hi'] at hat
  exact List.inj_on_of_nodup_map hnodup (List.getElem_mem hi)
    (h.mem_iff.2 (List.getElem_mem hi')) (Option.some.inj hat)

/-! ## Two bindings -/

/-- The binding `b'` of a query stands beside the binding `b` of a rule, after the same facts of the
    patterns before a predicate: both have the same variables, and the same values but for results. The
    rule lists a fact for each pattern; the query lists the facts that have names, in their order. -/
structure Binding.Beside (before : List Element) (b b' : Binding) : Prop where
  facts : b'.facts = b.facts
  names : b'.values.names = b.values.names
  values : ∀ name ∉ before.filterMap Element.result?, b'.values.find? name = b.values.find? name
  length : b.handles.length = (before.filterMap Element.factVar?).length
  named : b.facts.Perm (namedFacts (before.filterMap Element.factVar?) b.handles)
  ordered : b.facts.Ordered
  handles : b'.handles = b.facts.map Prod.snd

namespace Binding.Beside

variable {before : List Element} {b b' : Binding} (h : b.Beside before b')
include h

/-- If all patterns name their facts, by ascending names, the same facts are listed. -/
theorem handles_eq (hvars : Ascending (before.filterMap Element.factVar?)) :
    b'.handles = b.handles := by
  obtain ⟨names, hnames, hascending⟩ := hvars
  have hlength := h.length
  have hnamed := h.named
  rw [hnames, List.length_map] at hlength
  rw [hnames, namedFacts_map_some] at hnamed
  have hfirst : ((names.zip b.handles).map Prod.fst).Pairwise fun a b => compare a b = .lt := by
    rw [List.map_fst_zip (Nat.le_of_eq hlength.symm)]
    exact hascending
  have hordered : Entries.Ordered (names.zip b.handles) := List.pairwise_map.1 hfirst
  have hfacts : b.facts = names.zip b.handles := by
    refine eq_of_ascending (fun x y hxy hyx => ?_) h.ordered hordered fun e => hnamed.mem_iff
    have hself := Std.TransCmp.lt_trans hxy hyx
    rw [Std.ReflOrd.compare_self] at hself
    cases hself
  rw [h.handles, hfacts, List.map_snd_zip (Nat.le_of_eq hlength)]

/-- If the same facts are listed, all patterns name their facts. -/
theorem all_named (heq : b'.handles = b.handles) :
    none ∉ before.filterMap Element.factVar? := by
  have hlength := congrArg List.length heq
  rw [h.handles, List.length_map, h.named.length_eq, h.length] at hlength
  have hcount := length_namedFacts h.length
  rw [hlength] at hcount
  exact List.count_eq_zero.1 (by omega)

/-- If the same facts are listed and no fact is listed twice, the names ascend. -/
theorem ascending (heq : b'.handles = b.handles) (hnodup : b.handles.Nodup) :
    Ascending (before.filterMap Element.factVar?) := by
  obtain ⟨names, hnames⟩ := exists_names (h.all_named heq)
  have hlength := h.length
  have hnamed := h.named
  rw [hnames, List.length_map] at hlength
  rw [hnames, namedFacts_map_some] at hnamed
  have hlisted : b.facts.map Prod.snd = b.handles := h.handles.symm.trans heq
  have hfacts : b.facts = names.zip b.handles := by
    refine eq_of_perm_of_map hnamed ?_ (hlisted ▸ hnodup)
    rw [hlisted, List.map_snd_zip (Nat.le_of_eq hlength)]
  have hordered := h.ordered
  rw [hfacts] at hordered
  refine ⟨names, hnames, ?_⟩
  rw [← List.map_fst_zip (Nat.le_of_eq hlength.symm)]
  exact List.pairwise_map.2 hordered

end Binding.Beside

/-! ## Matches and rows -/

namespace Match

variable {store : WorkingMemory} {scope : Scope} {depth : Nat} {μ ν : Match}

/-- All matches of a branch bind values under the same names. -/
theorem names_row (store : WorkingMemory) (scope : Scope) (μ ν : Match) :
    (μ.row store scope).values.names = (ν.row store scope).values.names := by
  rw [values_row, values_row, Entries.names, Entries.names, Entries.select, Entries.select,
    List.map_filterMap, List.map_filterMap]
  refine congrArg (List.filterMap · scope) (funext fun e => ?_)
  obtain ⟨name, d⟩ := e
  cases d <;> rfl

/-- Matches that differ in results bind the same facts. -/
theorem facts_of_alike (h : μ.Alike (fun _ _ => True) ν) :
    (μ.row store scope).facts = (ν.row store scope).facts := by
  have hfact : μ.factOf = ν.factOf := funext fun d => by
    cases d with
    | fact d type => exact h.handleAt?_eq d
    | _ => rfl
  rw [facts_row, facts_row, hfact]

/-- Matches that differ in results bind the same fields. -/
theorem values_of_alike (h : μ.Alike (fun _ _ => True) ν) (R : scope.Regular depth) {name : String}
    (hresult : ∀ d, Entries.find? name scope ≠ some (.result d)) :
    (μ.row store scope).values.find? name = (ν.row store scope).values.find? name := by
  rw [find?_values_row R, find?_values_row R]
  cases hfind : Entries.find? name scope with
  | none => rfl
  | some declared =>
    cases declared with
    | result d => exact absurd hfind (hresult d)
    | field d field => simp only [Option.bind_some, valueOf, view, h.handleAt?_eq]
    | fact d type => rfl
    | parameter => rfl

end Match

/-- A row stands beside the match of a token, if the match that has gone on as the row has is one of
    the same facts along the same nodes. -/
theorem QueryView.Traced.beside {v : QueryView} {types : Types} {scope : Scope}
    {before : List Element} {kinds : List NodeKind} {sketches : List Sketch}
    {found : List Outline} {steps : List PlanStep} {chosen : List Handle} {row : Row} {μ ν : Match}
    (h : v.Traced scope kinds steps [] ⟨[], []⟩ chosen row ν)
    (hfound : outlines types [] 0 before = .ok found) (hlays : List.Forall₂ v.net.Lays found steps)
    (htwins : Twins [] 0 scope sketches found) (hμ : List.Forall₂ NodeKind.Carries kinds μ)
    (hsame : μ.handles = chosen) : (μ.binding v.store scope.places).Beside before row.toBinding := by
  have R := htwins.regular (Scope.regular_nil 0)
  have halike := Match.alike_of_carries h.carries hμ (h.handles.trans hsame.symm)
  have hlast : row = ν.row v.store scope := h.last_eq
  have hfacts : row.facts = (μ.row v.store scope).facts := by
    rw [hlast]
    exact Match.facts_of_alike halike
  have hordered : (μ.row v.store scope).facts.Ordered := Match.ordered_facts_row R
  obtain ⟨hfactVars, hresults⟩ := names_of_outlines hfound hlays
  refine ⟨hfacts, ?_, fun name hname => ?_, ?_, ?_, hordered, ?_⟩
  · rw [hlast]
    exact Match.names_row v.store scope ν μ
  · rw [hlast]
    refine Match.values_of_alike halike R fun d hd => ?_
    rcases htwins.results hlays hd with hnone | hresult
    · cases hnone
    · exact hname (hresults ▸ hresult)
  · rw [← hfactVars, ← h.length]
    exact congrArg List.length hsame
  · have hnamed := h.named
    rw [List.append_nil, hfactVars, hfacts] at hnamed
    rw [← hsame] at hnamed
    exact hnamed
  · exact congrArg (List.map Prod.snd) hfacts

/-! ## The node and the step of a predicate -/

namespace Network

variable {net : Network} {types : Types} {before after : List Element} {p : Predicate}

/-- The node of a predicate asks it, or the same one, about the variables of the elements before. -/
theorem Stands.predicate (W : net.WellFormed) {rule : Nat} {n : NodeId}
    (h : net.Stands types rule before (.predicate p) n) :
    ∃ node steps scope q, net.node? n = some node ∧
      sketches types [] 0 before = .ok (steps, scope) ∧
      List.Forall₂ net.Fits steps (net.trail node.parent) ∧
      node.kind = .predicate q scope.places ∧ p.same q = true := by
  obtain ⟨node, steps, scope, sketch, scope₁, hn, hsteps, hsketch, hbefore, hfits⟩ := h.step W
  cases hsketch
  obtain ⟨a, hsame, -⟩ := hfits
  cases hkind : node.kind with
  | predicate q places =>
    rw [hkind] at hsame
    simp only [Sketch.kind, NodeKind.same, Bool.and_eq_true, decide_eq_true_eq] at hsame
    obtain ⟨hsame, rfl⟩ := hsame
    exact ⟨node, steps, scope, q, hn, hsteps, hbefore, hkind, hsame⟩
  | _ =>
    rw [hkind] at hsame
    cases hsame

theorem outlines_append {scope : Scope} {depth : Nat} {found : List Outline}
    (h : outlines types scope depth (before ++ after) = .ok found) :
    ∃ first rest scope' depth', outlines types scope depth before = .ok first ∧
      outlines types scope' depth' after = .ok rest ∧ found = first ++ rest ∧
      first.length = before.length := by
  induction before generalizing scope depth found with
  | nil => exact ⟨[], found, scope, depth, rfl, h, rfl, rfl⟩
  | cons e before ih =>
    obtain ⟨⟨outline, scope₁⟩, houtline, h⟩ := ok_of_bind h
    obtain ⟨others, hothers, h⟩ := ok_of_bind h
    cases h
    obtain ⟨first, rest, scope', depth', hfirst, hrest, rfl, hlength⟩ := ih hothers
    refine ⟨outline :: first, rest, scope', depth', ?_, hrest, rfl, congrArg Nat.succ hlength⟩
    rw [outlines, houtline]
    simp only [bind, Except.bind, hfirst]

theorem forall₂_of_append {α β : Type} {R : α → β → Prop} {xs ys : List α} {zs : List β}
    (h : List.Forall₂ R (xs ++ ys) zs) : ∃ first rest, zs = first ++ rest ∧
      List.Forall₂ R xs first ∧ List.Forall₂ R ys rest := by
  refine ⟨_, _, (List.take_append_drop xs.length zs).symm, ?_, ?_⟩
  · exact (List.forall₂_take_append _ _ _ h.flip).flip
  · exact (List.forall₂_drop_append _ _ _ h.flip).flip

/-- The step of a predicate asks it, after the steps of the elements before. -/
theorem Outlines.predicate {steps : List PlanStep}
    (h : net.Outlines types (before ++ .predicate p :: after) steps) :
    ∃ found first rest, steps = first ++ .predicate p :: rest ∧ first.length = before.length ∧
      outlines types [] 0 before = .ok found ∧ List.Forall₂ net.Lays found first := by
  obtain ⟨all, hall, hlays⟩ := h
  obtain ⟨found, others, scope, depth, hfound, hothers, rfl, hlength⟩ := outlines_append hall
  obtain ⟨last, hlast, hothers⟩ := ok_of_bind hothers
  cases hlast
  obtain ⟨later, -, hothers⟩ := ok_of_bind hothers
  cases hothers
  obtain ⟨first, steps', rfl, hfirst, hsteps'⟩ := forall₂_of_append hlays
  cases hsteps' with
  | cons hstep hrest =>
    obtain ⟨b, rfl, -⟩ := hstep
    exact ⟨found, first, _, rfl, hfirst.length_eq.symm.trans hlength, hfound, hfirst⟩

end Network

/-! ## Sessions -/

namespace Session

variable {s : Session} {base : RuleBase} {settings : Settings}

/-- A query that passes over no member of a memory leaves out none. -/
theorem Reached.plain (hs : Reached base settings s) (W : base.network.WellFormed)
    (D : s.network.Dispatched)
    (hcurrent : ∀ a h, h ∈ s.matching.members a → s.queryView.isCurrent a h = true) :
    s.queryView.Plain where
  stocked := (hs.steady W).1.kept.stocked
  current {a h} hi := hcurrent a h hi
  alike {a b supply} ha hb := by
    obtain ⟨alpha, beta, ha', hb', hlike⟩ := Network.Supplies.like D D ha hb
    exact congrArg Shelf.facts ((hs.abreast W).shelf ha' hb' hlike)

/-- By a manual clock, a query passes over no member of a memory while no live fact is overdue. -/
theorem Reached.current (hs : Reached base settings s) (W : base.network.WellFormed)
    (D : s.network.Dispatched) (hclock : settings.clock = .manual)
    (hlive : ∀ i, s.store.contains i = true → s.expiry.isExpired i s.now = false) :
    ∀ a h, h ∈ s.matching.members a → s.queryView.isCurrent a h = true :=
  fun _ _ => ((hs.timely W hclock).plain (hs.abreast W) D hlive).current

/-- Where a query leaves out no member of a memory and only integers are summed, a row binds what the
    match of a token of the same facts binds, up to the signs of zeros; where updates are made step by
    step, it binds the same. -/
theorem Steady.row_of_traced (h : s.Steady) (W : s.network.WellFormed)
    (hfolds : s.network.Folds fun type fold => fold.OfIntegers s.base.types type)
    (P : s.queryView.Plain) {scope : Scope} {steps : List PlanStep} {chosen : List Handle}
    {row : Row} {ν : Match} {left : TokenId} {o : Origin}
    (ho : s.matching.origin? left = some o)
    (hν : s.queryView.Traced scope (s.network.trail o.node) steps [] ⟨[], []⟩ chosen row ν)
    (hsame : (s.matching.matchOf left).handles = chosen) :
    row.unsigned = ((s.matching.matchOf left).row s.store scope).unsigned ∧
      (s.settings.updatePolicy = .stepwise →
        row = (s.matching.matchOf left).row s.store scope) := by
  have hsums : ∀ kind ∈ s.network.trail o.node, kind.SumsIntegers s.store s.matching.members :=
    fun kind hk => by
      cases hnode : o.node with
      | none =>
        rw [hnode] at hk
        cases hk
      | some n =>
        rw [hnode] at hk
        obtain ⟨k, hkind⟩ := Network.kind?_of_mem_branchTo hk
        exact h.sumsIntegers hfolds hkind
  have hfound := hν.found P hsums [[]] (List.mem_singleton_self _)
  rw [evaluateFrom_nil] at hfound
  -- the match that evaluation finds by the facts of the token is the one that goes with the row
  have hrow : ∀ {R : Value → Value → Prop} {μ : Match}, μ ∈ evaluate s.store s.matching.members
      ((s.network.trail o.node).map NodeKind.granted) → (s.matching.matchOf left).Alike R μ →
      row = μ.row s.store scope := fun {R μ} hμ halike => by
    have hhandles : ν.handles = μ.handles := hν.handles.trans (hsame.symm.trans halike.handles_eq)
    rw [hν.last_eq, ← evaluate_unique hfound hμ hhandles]
    rfl
  constructor
  · obtain ⟨μ, hμ, halike⟩ := h.granted W hfolds (R := Value.SameUnsigned) (fun _ => rfl)
      (UpdatePolicy.rel_of_agree _) (fun kind => kind.blind_granted s.store) ho
    rw [hrow hμ halike]
    exact congrArg Binding.row (halike.binding s.store scope.places).symm
  · intro hpolicy
    obtain ⟨μ, hμ, halike⟩ := h.granted W hfolds (R := Eq) (fun _ => rfl)
      (fun {a b} hab => by
        rw [hpolicy] at hab
        obtain rfl : a = b := hab
        cases a with
        | none => exact .none
        | some v => exact .some rfl)
      (fun kind => kind.granted.blind_eq s.store) ho
    rw [hrow hμ halike, Match.eq_of_alike halike]

/-- A rule and a query of one condition ask a predicate about bindings of the same variables, for each
    choice of facts for the patterns before it. The values are the same, except that results may differ
    where the query passes over a member of a memory, or doubles are summed; a coalesced update may
    leave them with the sign of a zero. A rule lists all facts in the order of the patterns, and a query
    those that have a name, in the order of the names: so they list the same if all patterns name their
    facts by ascending names, and do not if a fact has no name, or if the facts are different ones and
    the names do not ascend. -/
theorem asked_of_reached {declarations : Declarations} (hb : declarations.build = .ok base)
    (hs : Reached base settings s) {place : Nat} {rule : Rule}
    (hrule : declarations.rules[place]? = some rule) {query : Query}
    (hquery : query ∈ declarations.queries) (hparams : query.parameters = [])
    (hcondition : query.condition = rule.condition) {branches : Branches}
    (hnormal : rule.condition.normalize = .ok branches) {k : Nat} {before after : List Element}
    {p : Predicate} (hbranch : branches[k]? = some (before ++ .predicate p :: after)) :
    ∃ plan steps rest n q places, s.plan query.name [] = .ok plan ∧
      plan.branches[k]? = some (steps ++ .predicate p :: rest) ∧ steps.length = before.length ∧
      base.network.Stands base.types place before (.predicate p) n ∧
      base.network.kind? n = some (.predicate q places) ∧ p.same q = true ∧
      ∀ left b chosen row, s.matching.LeftOf base.network n left →
        s.matching.binding s.store places left = b →
        s.queryView.Leads steps ⟨[], []⟩ chosen row → b.handles = chosen →
        ((∃ t, s.matching.Made n left t .nothing) ↔ q.holds b = true) ∧
        b.Beside before row.toBinding ∧
        (declarations.SumsIntegers →
          (∀ a h, h ∈ s.matching.members a → s.queryView.isCurrent a h = true) →
          row.unsigned = b.row.unsigned ∧ (settings.updatePolicy = .stepwise → row = b.row)) ∧
        (Ascending (before.filterMap Element.factVar?) → row.toBinding.handles = b.handles) ∧
        (row.toBinding.handles = b.handles → none ∉ before.filterMap Element.factVar? ∧
          (b.handles.Nodup → Ascending (before.filterMap Element.factVar?))) := by
  have C := Declarations.carries_build hb
  have W := C.wellFormed
  obtain ⟨hsteady, hbase, hset⟩ := hs.steady W
  obtain ⟨plan, hplan, hanswers⟩ := Declarations.answers_build hb hquery hparams
  have hrules : base.rules = declarations.rules := by rw [(Declarations.build_eq hb).2]
  have hcarried : BranchOf base.rules place (before ++ .predicate p :: after) :=
    ⟨rule, branches, hrules ▸ hrule, hnormal, List.mem_of_getElem? hbranch⟩
  obtain ⟨n, hstands⟩ := C.stands hcarried
  obtain ⟨node, sketched, scope, q, hn, hsketched, hfits, hkind, hsame⟩ := hstands.predicate W
  obtain ⟨branches', hnormal', hplans⟩ := hanswers.branches
  rw [hcondition] at hnormal'
  cases hnormal.symm.trans hnormal'
  obtain ⟨all, hall, houtlines⟩ := Network.forall₂_getElem? hplans hbranch
  obtain ⟨found, steps, rest, rfl, hlength, hfound, hlays⟩ := houtlines.predicate
  obtain ⟨sketched', scope', hsketched', htwins⟩ := sketches_of_outlines (Scope.regular_nil 0) hfound
  cases hsketched.symm.trans hsketched'
  subst hbase
  have hplan' : s.plan query.name [] = .ok plan := by
    rw [Session.plan, hplan]
    exact if_pos (congrArg List.length hanswers.parameters)
  have hk : s.base.network.kind? n = some (.predicate q scope.places) :=
    hkind ▸ Network.kind?_eq hn
  refine ⟨plan, steps, rest, n, q, scope.places, hplan', hall, hlength, hstands, hk, hsame, ?_⟩
  rintro left b chosen row ⟨node', hn', o, ho, hparent⟩ rfl hleads hhandles
  cases hn.symm.trans hn'
  rw [← hparent] at hfits
  obtain ⟨ν, hν⟩ := QueryView.Leads.traced (v := s.queryView) (μ := []) htwins hfits hlays
    (Scope.regular_nil 0) rfl hleads
  have F := hsteady.kept.sound.forest
  have hmade := hsteady.made_predicate W hk ⟨node, hn, o, ho, hparent⟩
  rw [Matching.binding_eq W F ho] at hhandles hmade ⊢
  have hbeside := hν.beside hfound hlays htwins
    (F.carries_matchOf W (fun hmade => hsteady.kept.sound.carries hmade) ho) hhandles
  refine ⟨hmade, hbeside, fun hsums hcurrent => ?_, hbeside.handles_eq, fun heq =>
    ⟨hbeside.all_named heq, hbeside.ascending heq⟩⟩
  rw [← hset]
  exact hsteady.row_of_traced W (Declarations.folds_build hb hsums)
    (hs.plain W C.dispatched hcurrent) ho hν hhandles

/-- Whether a node that asks a predicate asks it about this binding, for one of these tokens. -/
def asks (s : Session) (b : Binding) (tokens : List TokenId) (node : BetaNode) : Bool :=
  match node.kind with
  | .predicate _ places => tokens.any fun left =>
    decide ((s.matching.origin? left).map Origin.node = some node.parent ∧
      s.matching.binding s.store places left = b)
  | _ => true

theorem leftOf_of_asks {net : Network} {b : Binding} {tokens : List TokenId} {n : NodeId}
    {q : Predicate} {places : List (String × Place)} (h : net.nodes.all (s.asks b tokens) = true)
    (hk : net.kind? n = some (.predicate q places)) :
    ∃ left, s.matching.LeftOf net n left ∧ s.matching.binding s.store places left = b := by
  obtain ⟨node, hn, hkind⟩ := Network.kind?_eq_some.1 hk
  have hnode := Array.all_eq_true_iff_forall_mem.1 h node (Array.mem_of_getElem? hn)
  simp only [asks, hkind, List.any_eq_true, decide_eq_true_eq] at hnode
  obtain ⟨left, -, horigin, hbinding⟩ := hnode
  obtain ⟨o, ho, hparent⟩ := Option.map_eq_some_iff.1 horigin
  exact ⟨left, ⟨node, hn, o, ho, hparent⟩, hbinding⟩

/-- Whether the first steps of every branch of a query lead to such a choice and row. -/
def guides (s : Session) (name : String) (length : Nat) (p : List Handle × Row → Bool) : Bool :=
  (s.plan name []).toOption.any fun plan => plan.branches.all fun steps =>
    (s.queryView.choices (steps.take length) ⟨[], []⟩).any p

theorem leads_of_guides {name : String} {length : Nat} {p : List Handle × Row → Bool} {plan : Plan}
    {steps rest : List PlanStep} (h : s.guides name length p = true)
    (hplan : s.plan name [] = .ok plan) (hbranch : steps ++ rest ∈ plan.branches)
    (hlength : steps.length = length) :
    ∃ choice, p choice = true ∧ s.queryView.Leads steps ⟨[], []⟩ choice.1 choice.2 := by
  rw [guides, hplan] at h
  have hall := List.all_eq_true.1 h _ hbranch
  rw [List.take_left' hlength] at hall
  obtain ⟨choice, hchoice, hp⟩ := List.any_eq_true.1 hall
  exact ⟨choice, hp, QueryView.mem_choices.1 hchoice⟩

/-- A step, a lower one with a name before it in the alphabet, and what is to be paid on the way. -/
def stairElements : List Element :=
  [.pattern ⟨"step", some "to", [], [("y", "level")], none⟩,
    .pattern ⟨"step", some "from", [.compare "level" .less (.var "y")], [("x", "level")], none⟩,
    .accumulate ⟨⟨"toll", none, [], [], none⟩, .sum "cost", "total", none⟩]

def threeValues : Predicate := ⟨"three", 0, false, fun b => b.values.length == 3⟩

def stair : Condition :=
  .all [.pattern ⟨"step", some "to", [], [("y", "level")], none⟩,
    .pattern ⟨"step", some "from", [.compare "level" .less (.var "y")], [("x", "level")], none⟩,
    .accumulate ⟨⟨"toll", none, [], [], none⟩, .sum "cost", "total", none⟩,
    .predicate threeValues]

def stairs : Declarations where
  types := [⟨"step", [("level", .integer)], .fact, none, none⟩,
    ⟨"toll", [("cost", .integer)], .fact, none, none⟩]
  rules := [⟨"stair", 0, mainGroup, false, false, false, stair, fun _ => .done⟩]
  queries := [⟨"stairs", [], stair⟩]

/-- The upper step comes first. -/
def stairsRun (base : RuleBase) : Session :=
  (((start base { Settings.standard with clock := .manual } 0).change
    (.insert ⟨"step", [("level", .integer 2)]⟩)).change
    (.insert ⟨"step", [("level", .integer 1)]⟩)).change
    (.insert ⟨"toll", [("cost", .integer 5)]⟩)

theorem sumsIntegers_stairs : stairs.SumsIntegers := by
  intro rule hrule acc hacc _
  obtain rfl := List.mem_singleton.1 hrule
  simp only [stair, Condition.leaves, Condition.leavesOfAll, List.append_nil, List.cons_append,
    List.nil_append, List.mem_cons, List.not_mem_nil, or_false, reduceCtorEq, false_or,
    Condition.accumulate.injEq] at hacc
  subst hacc
  exact ⟨⟨"toll", [("cost", .integer)], .fact, none, none⟩, "cost", by decide +kernel, rfl, rfl⟩

/-- What the rule asks its predicate about. -/
def stairsBinding : Binding :=
  ⟨[("from", 2), ("to", 1)], [("total", .integer 5), ("x", .integer 1), ("y", .integer 2)], [1, 2]⟩

/-- The query asks about the same variables, and lists the facts the other way round. -/
theorem asked_of_reached_stairsRun : ∃ base, stairs.build = .ok base ∧ stairs.SumsIntegers ∧
    Reached base { Settings.standard with clock := .manual } (stairsRun base) ∧
    (∀ a h, h ∈ (stairsRun base).matching.members a →
      (stairsRun base).queryView.isCurrent a h = true) ∧
    ∃ steps n places left row, (stairsRun base).matching.LeftOf base.network n left ∧
      (stairsRun base).matching.binding (stairsRun base).store places left = stairsBinding ∧
      (stairsRun base).queryView.Leads steps ⟨[], []⟩ stairsBinding.handles row ∧
      row = stairsBinding.row ∧ row.toBinding.handles = [2, 1] := by
  obtain ⟨base, hb, hrun⟩ := Declarations.build_of_passes stairs (fun base =>
    ((stairsRun base).expiry.deadlines.toList.all fun deadline =>
        decide ((stairsRun base).now < deadline.2)) &&
      base.network.nodes.all ((stairsRun base).asks stairsBinding [0, 1, 2, 3, 4, 5, 6]) &&
      (stairsRun base).guides "stairs" 3 fun choice => choice.1 == [1, 2]) (by decide +kernel)
  simp only [Bool.and_eq_true] at hrun
  obtain ⟨⟨hdeadlines, hnodes⟩, hplans⟩ := hrun
  have hs : Reached base { Settings.standard with clock := .manual } (stairsRun base) :=
    (((Reached.start 0).change _).change _).change _
  have C := Declarations.carries_build hb
  have hdispatched : (stairsRun base).network.Dispatched := by
    rw [network, (hs.steady C.wellFormed).2.1]
    exact C.dispatched
  have hcurrent := hs.current C.wellFormed hdispatched rfl fun i _ =>
    ExpirySchedule.isExpired_of_all hdeadlines i
  have hrule : stairs.rules[0]? =
      some ⟨"stair", 0, mainGroup, false, false, false, stair, fun _ => .done⟩ := rfl
  have hquery : (⟨"stairs", [], stair⟩ : Query) ∈ stairs.queries := List.mem_singleton_self _
  have hnormal : stair.normalize = .ok [stairElements ++ .predicate threeValues :: []] := rfl
  have hbranch : [stairElements ++ .predicate threeValues :: []][0]? =
      some (stairElements ++ .predicate threeValues :: []) := rfl
  obtain ⟨plan, steps, rest, n, q, places, hplan, hsteps, hlength, -, hk, -, hall⟩ :=
    asked_of_reached hb hs hrule hquery rfl rfl hnormal hbranch
  obtain ⟨left, hleft, hbinding⟩ := leftOf_of_asks hnodes hk
  obtain ⟨⟨chosen, row⟩, hchosen, hleads⟩ :=
    leads_of_guides hplans hplan (List.mem_of_getElem? hsteps) hlength
  obtain rfl : chosen = [1, 2] := eq_of_beq hchosen
  obtain ⟨-, hbeside, hvalues, -⟩ := hall left _ _ row hleft hbinding hleads rfl
  refine ⟨base, hb, sumsIntegers_stairs, hs, hcurrent, steps, n, places, left, row, hleft, hbinding,
    hleads, (hvalues sumsIntegers_stairs hcurrent).2 rfl, ?_⟩
  rw [hbeside.handles]
  rfl

/-- A predicate that asks how many facts a match depends on. -/
def oneFact : Predicate := ⟨"one fact", 0, false, fun b => b.handles.length == 1⟩

def anyGuest : Pattern := ⟨"guest", none, [], [], none⟩

/-- A guest without a name comes alone. -/
def alone : Condition := .all [.pattern anyGuest, .predicate oneFact]

def guests : Declarations where
  types := [⟨"guest", [("age", .integer)], .fact, none, none⟩]
  rules := [⟨"alone", 0, mainGroup, false, false, false, alone, fun _ => .done⟩]
  queries := [⟨"alone", [], alone⟩]

def guestsRun (base : RuleBase) : Session :=
  (start base { Settings.standard with clock := .manual } 0).change
    (.insert ⟨"guest", [("age", .integer 30)]⟩)

/-- The rule finds the guest, and the query does not: after the same fact, the rule asks about a binding
    that lists the fact, and the query asks about one that lists none. -/
theorem guestsRun_unlisted : ∃ base, guests.build = .ok base ∧
    Reached base { Settings.standard with clock := .manual } (guestsRun base) ∧
    (guestsRun base).agenda.pending.map Activation.binding = [⟨[], [], [1]⟩] ∧
    (guestsRun base).query "alone" [] = .ok [] ∧
    ∃ plan steps rest n q places left, (guestsRun base).plan "alone" [] = .ok plan ∧
      plan.branches = [steps ++ .predicate oneFact :: rest] ∧ steps.length = 1 ∧
      base.network.Stands base.types 0 [.pattern anyGuest] (.predicate oneFact) n ∧
      base.network.kind? n = some (.predicate q places) ∧ oneFact.same q = true ∧
      (guestsRun base).matching.LeftOf base.network n left ∧
      (guestsRun base).matching.binding (guestsRun base).store places left = ⟨[], [], [1]⟩ ∧
      (guestsRun base).queryView.Leads steps ⟨[], []⟩ [1] ⟨[], []⟩ ∧
      (⟨[], []⟩ : Row).toBinding = ⟨[], [], []⟩ := by
  obtain ⟨base, hb, hrun⟩ := Declarations.build_of_passes guests (fun base =>
    decide ((guestsRun base).agenda.pending.map Activation.binding = [⟨[], [], [1]⟩] ∧
      (guestsRun base).query "alone" [] = .ok []) &&
      base.network.nodes.all ((guestsRun base).asks ⟨[], [], [1]⟩ [0, 1]) &&
      (guestsRun base).guides "alone" 1 fun choice => choice == ([1], ⟨[], []⟩))
    (by decide +kernel)
  simp only [Bool.and_eq_true, decide_eq_true_eq] at hrun
  obtain ⟨⟨⟨hpending, hrows⟩, hnodes⟩, hplans⟩ := hrun
  have hs : Reached base { Settings.standard with clock := .manual } (guestsRun base) :=
    (Reached.start 0).change _
  have C := Declarations.carries_build hb
  have hbase := (hs.steady C.wellFormed).2.1
  have hrules : base.rules = guests.rules := by rw [(Declarations.build_eq hb).2]
  have hquery : (⟨"alone", [], alone⟩ : Query) ∈ guests.queries := List.mem_singleton_self _
  -- the step of the query
  obtain ⟨plan, hfound, hanswers⟩ := Declarations.answers_build hb hquery rfl
  have hplan : (guestsRun base).plan "alone" [] = .ok plan := by
    rw [Session.plan, hbase, hfound]
    exact if_pos (congrArg List.length hanswers.parameters)
  obtain ⟨branches, hnormal, hbranches⟩ := hanswers.branches
  have hone : alone.normalize = .ok [[.pattern anyGuest] ++ .predicate oneFact :: []] := rfl
  cases hone.symm.trans hnormal
  obtain ⟨all, others, houtlines, hothers, hall⟩ := List.forall₂_cons_left_iff.1 hbranches
  cases hothers
  obtain ⟨-, steps, rest, rfl, hlength, -, -⟩ := houtlines.predicate
  obtain ⟨choice, hchoice, hleads⟩ :=
    leads_of_guides hplans hplan (hall ▸ List.mem_singleton_self _) hlength
  obtain rfl : choice = ([1], ⟨[], []⟩) := eq_of_beq hchoice
  -- the node of the rule
  have hcarried : BranchOf base.rules 0 ([.pattern anyGuest] ++ .predicate oneFact :: []) :=
    hrules ▸ ⟨_, _, rfl, hone, List.mem_singleton_self _⟩
  obtain ⟨n, hstands⟩ := C.stands hcarried
  obtain ⟨node, -, scope, q, hn, -, -, hkind, hsame⟩ := hstands.predicate C.wellFormed
  have hk : base.network.kind? n = some (.predicate q scope.places) := hkind ▸ Network.kind?_eq hn
  obtain ⟨left, hleft, hbinding⟩ := leftOf_of_asks hnodes hk
  exact ⟨base, hb, hs, hpending, hrows, plan, steps, rest, n, q, scope.places, left, hplan, hall,
    hlength, hstands, hk, hsame, hleft, hbinding, hleads, rfl⟩

end Session

end RuleNet
