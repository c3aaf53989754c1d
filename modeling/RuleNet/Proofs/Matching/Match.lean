/-
  Matches as what their tokens carry.

  * `Origin`: how a token came to be, which never changes while it lives.
  * `Matching.Forest`: live tokens hang together below the root token as the nodes do.
  * `Match`, `Matching.matchOf`: what the tokens of a chain carry, from the root. What places hold
    on a chain (`Matching.view_eq`) and its binding (`Matching.binding_eq`) depend on nothing else.
  * `Matching.Stands`: a live token of a terminal's last node.
  * `Replays`: events lead from the tokens that stood at terminals to those that stand there now.
-/
import RuleNet.Matching.Propagate
import RuleNet.Proofs.Network.Tree

namespace RuleNet

open Matching (Extension)

/-! ## Tokens -/

/-- How a token came to be. -/
structure Origin where
  parent : Option TokenId
  node : Option NodeId
  depth : Nat
  step : Extension
  deriving DecidableEq

def Token.step (token : Token) : Extension := ⟨token.handle, token.value⟩

def Token.origin (token : Token) : Origin := ⟨token.parent, token.node, token.depth, token.step⟩

/-- What the tokens of a chain carry, the root token left out. -/
abbrev Match := List Extension

namespace Match

/-- What the token at a depth carries. -/
def at? (μ : Match) : Nat → Option Extension
  | 0 => none
  | depth + 1 => (μ : List Extension)[depth]?

/-- The fact matched at a depth. -/
def handleAt? (μ : Match) (depth : Nat) : Option Handle := (μ.at? depth).bind Extension.handle

/-- What places hold in a match. -/
def view (store : WorkingMemory) (μ : Match) : View Place where
  value
    | .field depth name => match μ.handleAt? depth with
      | some h => store.valueOf h name
      | none => .null
    | .result depth => ((μ.at? depth).bind Extension.value).getD .null
    | .fact _ => .null
  moment
    | .fact depth => (μ.handleAt? depth).bind store.moment?
    | _ => none

/-- The facts of a match in the order of the patterns. -/
def handles (μ : Match) : List Handle := μ.filterMap Extension.handle

/-- The variables of a match. -/
def binding (store : WorkingMemory) (scope : List (String × Place)) (μ : Match) : Binding where
  facts := scope.filterMap fun (name, place) => match place with
    | .fact depth => (μ.handleAt? depth).map (name, ·)
    | _ => none
  values := scope.filterMap fun (name, place) => match place with
    | .fact _ => none
    | place => some (name, (μ.view store).value place)
  handles := μ.handles

/-- Two stores that agree on the facts of a match give it the same variables. -/
theorem view_congr {store store' : WorkingMemory} {μ : Match}
    (h : ∀ i ∈ μ.handles, store.entry? i = store'.entry? i) : μ.view store = μ.view store' := by
  have hat : ∀ {depth i}, μ.handleAt? depth = some i → i ∈ μ.handles := by
    intro depth i hi
    obtain ⟨e, he, hei⟩ := Option.bind_eq_some_iff.1 hi
    cases depth with
    | zero => cases he
    | succ depth => exact List.mem_filterMap.2 ⟨e, List.mem_of_getElem? he, hei⟩
  have hvalue : (μ.view store).value = (μ.view store').value := by
    funext place
    cases place with
    | field depth name =>
      simp only [view]
      cases hd : μ.handleAt? depth with
      | none => rfl
      | some i => simp only [WorkingMemory.valueOf, WorkingMemory.fact?, h i (hat hd)]
    | result depth => rfl
    | fact depth => rfl
  have hmoment : (μ.view store).moment = (μ.view store').moment := by
    funext place
    cases place with
    | fact depth =>
      simp only [view]
      cases hd : μ.handleAt? depth with
      | none => rfl
      | some i => simp only [Option.bind_some, WorkingMemory.moment?, h i (hat hd)]
    | field depth name => rfl
    | result depth => rfl
  calc μ.view store = ⟨(μ.view store).value, (μ.view store).moment⟩ := rfl
    _ = ⟨(μ.view store').value, (μ.view store').moment⟩ := by rw [hvalue, hmoment]

theorem binding_congr {store store' : WorkingMemory} {μ : Match} (scope : List (String × Place))
    (h : ∀ i ∈ μ.handles, store.entry? i = store'.entry? i) :
    μ.binding store scope = μ.binding store' scope := by
  simp only [binding, view_congr h]

end Match

namespace Matching

/-- How a live token came to be. -/
def origin? (m : Matching) (t : TokenId) : Option Origin := (m.tokens[t]?).map Token.origin

/-- Whether a token is live and was made by a node, or is the root token if there is none. -/
def LiveAt (m : Matching) (t : TokenId) (node : Option NodeId) : Prop :=
  ∃ o, m.origin? t = some o ∧ o.node = node

/-- What the chain of a token carries. -/
def matchOf (m : Matching) (t : TokenId) : Match := ((m.chain t).reverse.drop 1).map Token.step

/-- A token that a node made for a left token, and what it carries. -/
def Made (m : Matching) (n : NodeId) (left t : TokenId) (e : Extension) : Prop :=
  ∃ depth, m.origin? t = some ⟨some left, some n, depth, e⟩

/-- Whether a live token is a left token of a node. -/
def LeftOf (m : Matching) (net : Network) (n : NodeId) (left : TokenId) : Prop :=
  ∃ node, net.node? n = some node ∧ m.LiveAt left node.parent

/-- Live tokens hang together below the root token, each made by a child of its parent's node. -/
structure Forest (m : Matching) (net : Network) : Prop where
  root : m.origin? rootToken = some ⟨none, none, 0, .nothing⟩
  lt_next : ∀ {t o}, m.origin? t = some o → t < m.nextToken
  made : ∀ {t o}, m.origin? t = some o → t ≠ rootToken → ∃ p n node above,
    o.parent = some p ∧ o.node = some n ∧ net.node? n = some node ∧ p < t ∧
    m.origin? p = some above ∧ above.node = node.parent ∧ o.depth = node.depth
  children : ∀ {p c}, (∃ token, m.tokens[p]? = some token ∧ c ∈ token.children) ↔
    ∃ o, m.origin? c = some o ∧ o.parent = some p
  nodup : ∀ {p : TokenId} {token : Token}, m.tokens[p]? = some token → token.children.Nodup

variable {net : Network} {m m' : Matching}

theorem origin?_eq_some {t : TokenId} {o : Origin} :
    m.origin? t = some o ↔ ∃ token, m.tokens[t]? = some token ∧ token.origin = o :=
  Option.map_eq_some_iff

theorem origin?_of_live {t : TokenId} {token : Token} (h : m.tokens[t]? = some token) :
    m.origin? t = some token.origin :=
  origin?_eq_some.2 ⟨token, h, rfl⟩

theorem Made.live {n : NodeId} {left t : TokenId} {e : Extension} (h : m.Made n left t e) :
    m.LiveAt t (some n) := by
  obtain ⟨depth, ho⟩ := h
  exact ⟨_, ho, rfl⟩

theorem made_of_origin {t : TokenId} {o : Origin} {n : NodeId} {left : TokenId}
    (h : m.origin? t = some o) (hn : o.node = some n) (hp : o.parent = some left) :
    m.Made n left t o.step := by
  obtain ⟨parent, node, depth, step⟩ := o
  subst hn hp
  exact ⟨depth, h⟩

/-- A token is made by one node for one left token. -/
theorem Made.unique {n n' : NodeId} {left left' t : TokenId} {e e' : Extension}
    (h : m.Made n left t e) (h' : m.Made n' left' t e') : n = n' ∧ left = left' ∧ e = e' := by
  obtain ⟨depth, ho⟩ := h
  obtain ⟨depth', ho'⟩ := h'
  have heq := Option.some.inj (ho.symm.trans ho')
  rw [Origin.mk.injEq] at heq
  exact ⟨Option.some.inj heq.2.1, Option.some.inj heq.1, heq.2.2.2⟩

namespace Forest

/-- Only the root token has no node. -/
theorem eq_root (F : m.Forest net) {t : TokenId} (h : m.LiveAt t none) : t = rootToken := by
  obtain ⟨o, ho, hn⟩ := h
  apply Decidable.byContradiction
  intro hne
  obtain ⟨p, n, node, above, -, hnode, -⟩ := F.made ho hne
  rw [hn] at hnode
  cases hnode

theorem live_root (F : m.Forest net) : m.LiveAt rootToken none := ⟨_, F.root, rfl⟩

theorem ne_root (F : m.Forest net) {t : TokenId} {o : Origin} {n : NodeId}
    (h : m.origin? t = some o) (hn : o.node = some n) : t ≠ rootToken := by
  rintro rfl
  obtain rfl := Option.some.inj (F.root.symm.trans h)
  cases hn

/-- A token at a node was made by the node for a left token. -/
theorem made_at (F : m.Forest net) {t : TokenId} {n : NodeId} {node : BetaNode}
    (hn : net.node? n = some node) (h : m.LiveAt t (some n)) :
    ∃ left e, m.Made n left t e ∧ m.LiveAt left node.parent := by
  obtain ⟨o, ho, hat⟩ := h
  obtain ⟨left, k, above, origin, hleft, hk, habove, -, hlive, hparent, -⟩ :=
    F.made ho (F.ne_root ho hat)
  obtain rfl := Option.some.inj (hk.symm.trans hat)
  obtain rfl := Option.some.inj (habove.symm.trans hn)
  exact ⟨left, o.step, made_of_origin ho hk hleft, origin, hlive, hparent⟩

/-- A token is older than its children. -/
theorem lt_of_parent (F : m.Forest net) {t p : TokenId} {o : Origin} (h : m.origin? t = some o)
    (hp : o.parent = some p) : p < t := by
  have hne : t ≠ rootToken := by
    rintro rfl
    obtain rfl := Option.some.inj (F.root.symm.trans h)
    cases hp
  obtain ⟨p', n, node, above, hp', -, -, hlt, -⟩ := F.made h hne
  obtain rfl := Option.some.inj (hp.symm.trans hp')
  exact hlt

end Forest

/-! ## Chains -/

theorem chain_root (F : m.Forest net) : ∃ token, m.chain rootToken = [token] ∧
    token.origin = ⟨none, none, 0, .nothing⟩ := by
  obtain ⟨token, htoken, ho⟩ := origin?_eq_some.1 F.root
  have hparent : token.parent = none := congrArg Origin.parent ho
  refine ⟨token, ?_, ho⟩
  rw [chain, htoken]
  simp only [hparent]

theorem chain_made {t p : TokenId} {o : Origin} (h : m.origin? t = some o)
    (hp : o.parent = some p) (hlt : p < t) :
    ∃ token, m.chain t = token :: m.chain p ∧ token.origin = o := by
  obtain ⟨token, htoken, ho⟩ := origin?_eq_some.1 h
  have hparent : token.parent = some p := (congrArg Origin.parent ho).trans hp
  refine ⟨token, ?_, ho⟩
  rw [chain, htoken]
  simp only [hparent, if_pos hlt]

theorem chain_ne_nil {t : TokenId} {o : Origin} (h : m.origin? t = some o) : m.chain t ≠ [] := by
  obtain ⟨token, htoken, -⟩ := origin?_eq_some.1 h
  rw [chain, htoken]
  dsimp only
  split
  · exact List.cons_ne_nil _ _
  · split <;> exact List.cons_ne_nil _ _

theorem matchOf_root (F : m.Forest net) : m.matchOf rootToken = [] := by
  obtain ⟨token, h, -⟩ := chain_root F
  rw [matchOf, h]
  rfl

theorem matchOf_made {t p : TokenId} {o above : Origin} (h : m.origin? t = some o)
    (hp : o.parent = some p) (hlt : p < t) (habove : m.origin? p = some above) :
    m.matchOf t = m.matchOf p ++ [o.step] := by
  obtain ⟨token, hchain, ho⟩ := chain_made h hp hlt
  have hne : (m.chain p).reverse ≠ [] := by
    rw [Ne, List.reverse_eq_nil_iff]
    exact chain_ne_nil habove
  have hlen : 1 ≤ (m.chain p).reverse.length := List.length_pos_iff.2 hne
  have hstep : token.step = o.step := congrArg Origin.step ho
  rw [matchOf, hchain, List.reverse_cons, List.drop_append_of_le_length hlen, List.map_append,
    ← matchOf]
  simp only [List.map_cons, List.map_nil, hstep]

/-- A property of all live tokens, from the root downwards. -/
theorem Forest.induction (F : m.Forest net) {P : TokenId → Origin → Prop}
    (root : P rootToken ⟨none, none, 0, .nothing⟩)
    (made : ∀ t p n node o above, m.origin? t = some o → o.parent = some p → o.node = some n →
      net.node? n = some node → p < t → m.origin? p = some above → above.node = node.parent →
      o.depth = node.depth → P p above → P t o) :
    ∀ t o, m.origin? t = some o → P t o := by
  intro t
  induction t using Nat.strongRecOn with
  | ind t ih =>
    intro o ho
    by_cases hroot : t = rootToken
    · subst hroot
      obtain rfl := Option.some.inj (F.root.symm.trans ho)
      exact root
    · obtain ⟨p, n, node, above, hp, hn, hnode, hlt, habove, heq, hdepth⟩ := F.made ho hroot
      exact made t p n node o above ho hp hn hnode hlt habove heq hdepth (ih p hlt above habove)

/-- A match has as many steps as the depth of its token. -/
theorem length_matchOf (W : net.WellFormed) (F : m.Forest net) {t : TokenId} {o : Origin}
    (h : m.origin? t = some o) :
    (m.matchOf t).length = o.depth ∧ ∀ n node, o.node = some n → net.node? n = some node →
      o.depth = node.depth := by
  refine F.induction (P := fun t o => (m.matchOf t).length = o.depth ∧
    ∀ n node, o.node = some n → net.node? n = some node → o.depth = node.depth) ?_ ?_ t o h
  · rw [matchOf_root F]
    exact ⟨rfl, fun n node hn => by cases hn⟩
  · intro t p n node o above ho hp hn hnode hlt habove heq hdepth ⟨ihlen, ihdepth⟩
    refine ⟨?_, fun n' node' hn' hnode' => ?_⟩
    · rw [matchOf_made ho hp hlt habove, List.length_append, ihlen, hdepth]
      cases hpar : node.parent with
      | none =>
        obtain rfl := F.eq_root ⟨above, habove, heq.trans hpar⟩
        obtain rfl := Option.some.inj (F.root.symm.trans habove)
        rw [W.top hnode hpar]
        rfl
      | some q =>
        obtain ⟨-, up, hup, hd⟩ := W.parent hnode hpar
        rw [ihdepth q up (heq.trans hpar) hup, hd]
        rfl
    · obtain rfl := Option.some.inj (hn.symm.trans hn')
      obtain rfl := Option.some.inj (hnode.symm.trans hnode')
      exact hdepth

/-- The token of a chain at a depth carries what its match holds there. -/
theorem atDepth?_step (W : net.WellFormed) (F : m.Forest net) (depth : Nat) {t : TokenId}
    {o : Origin} (h : m.origin? t = some o) :
    (m.atDepth? t (depth + 1)).map Token.step = (m.matchOf t)[depth]? := by
  refine F.induction (P := fun t _ => (m.atDepth? t (depth + 1)).map Token.step =
    (m.matchOf t)[depth]?) ?_ ?_ t o h
  · obtain ⟨token, hchain, ho⟩ := chain_root F
    have hd : token.depth = 0 := congrArg Origin.depth ho
    rw [atDepth?, hchain, matchOf_root F]
    simp [hd]
  · intro t p n node o above ho hp hn hnode hlt habove heq hdepth ih
    obtain ⟨token, hchain, htoken⟩ := chain_made ho hp hlt
    have hd : token.depth = o.depth := congrArg Origin.depth htoken
    have hstep : token.step = o.step := congrArg Origin.step htoken
    have hlen : (m.matchOf t).length = o.depth := (length_matchOf W F ho).1
    have hmatch := matchOf_made ho hp hlt habove
    rw [hmatch, List.length_append, List.length_singleton] at hlen
    rw [atDepth?, hchain, List.find?_cons, hmatch]
    by_cases hle : token.depth ≤ depth + 1
    · rw [decide_eq_true hle]
      by_cases hsame : token.depth = depth + 1
      · have hat : depth = (m.matchOf p).length := by omega
        rw [hat, List.getElem?_append_right (Nat.le_refl _), Nat.sub_self, ← hat]
        simp only [hsame, Option.filter_some, beq_self_eq_true, if_true, Option.map_some, hstep,
          List.getElem?_cons_zero]
      · have hout : (m.matchOf p ++ [o.step]).length ≤ depth := by
          rw [List.length_append, List.length_singleton]; omega
        rw [List.getElem?_eq_none hout]
        simp [hsame]
    · rw [decide_eq_false hle, List.getElem?_append_left (by omega), ← ih]
      rfl

theorem atDepth?_zero (F : m.Forest net) (W : net.WellFormed) {t : TokenId} {o : Origin}
    (h : m.origin? t = some o) :
    (m.atDepth? t 0).map Token.step = some .nothing := by
  refine F.induction (P := fun t _ => (m.atDepth? t 0).map Token.step = some .nothing) ?_ ?_ t o h
  · obtain ⟨token, hchain, ho⟩ := chain_root F
    have hd : token.depth = 0 := congrArg Origin.depth ho
    have hstep : token.step = .nothing := congrArg Origin.step ho
    rw [atDepth?, hchain, List.find?_cons, hd]
    simp only [Nat.le_refl, decide_true, Option.filter_some, hd, beq_self_eq_true, if_true,
      Option.map_some, hstep]
  · intro t p n node o above ho hp hn hnode hlt habove heq hdepth ih
    obtain ⟨token, hchain, htoken⟩ := chain_made ho hp hlt
    have hd : token.depth = o.depth := congrArg Origin.depth htoken
    have hlen : (m.matchOf t).length = o.depth := (length_matchOf W F ho).1
    rw [matchOf_made ho hp hlt habove, List.length_append, List.length_singleton] at hlen
    have hgt : ¬ token.depth ≤ 0 := by omega
    rw [atDepth?, hchain, List.find?_cons, decide_eq_false hgt]
    exact ih

/-! ## What a chain says -/

section
variable (W : net.WellFormed) (F : m.Forest net) {t : TokenId} {o : Origin}
  (h : m.origin? t = some o)
include W F h

theorem atDepth?_bind {α : Type} (f : Token → Option α) (g : Extension → Option α)
    (hfg : ∀ token, f token = g token.step) (hnothing : g .nothing = none) (depth : Nat) :
    (m.atDepth? t depth).bind f = ((m.matchOf t).at? depth).bind g := by
  have hmap : (m.atDepth? t depth).bind f = ((m.atDepth? t depth).map Token.step).bind g := by
    cases m.atDepth? t depth with
    | none => rfl
    | some token => exact hfg token
  rw [hmap]
  cases depth with
  | zero => rw [atDepth?_zero F W h]; exact hnothing
  | succ depth => rw [atDepth?_step W F depth h]; rfl

theorem handleAt?_eq (depth : Nat) : m.handleAt? t depth = (m.matchOf t).handleAt? depth :=
  atDepth?_bind W F h Token.handle Extension.handle (fun _ => rfl) rfl depth

/-- What places hold on a chain depends on its match only. -/
theorem view_eq (store : WorkingMemory) : m.view store t = (m.matchOf t).view store := by
  have hvalue : (m.view store t).value = ((m.matchOf t).view store).value := by
    funext place
    cases place with
    | field depth name =>
      exact congrArg (fun found : Option Handle => match found with
        | some i => store.valueOf i name
        | none => .null) (handleAt?_eq W F h depth)
    | result depth =>
      simp only [view, Match.view]
      rw [atDepth?_bind W F h Token.value Extension.value (fun _ => rfl) rfl]
    | fact depth => rfl
  have hmoment : (m.view store t).moment = ((m.matchOf t).view store).moment := by
    funext place
    cases place with
    | fact depth => simp only [view, Match.view, handleAt?_eq W F h]
    | field depth name => rfl
    | result depth => rfl
  calc m.view store t = ⟨(m.view store t).value, (m.view store t).moment⟩ := rfl
    _ = (m.matchOf t).view store := by rw [hvalue, hmoment]

omit W in
theorem chainHandles_eq : m.chainHandles t = (m.matchOf t).handles := by
  refine F.induction (P := fun t _ => m.chainHandles t = (m.matchOf t).handles) ?_ ?_ t o h
  · obtain ⟨token, hchain, ho⟩ := chain_root F
    have hstep : token.handle = none := congrArg (fun o => o.step.handle) ho
    rw [chainHandles, hchain, matchOf_root F]
    simp [hstep, Match.handles]
  · intro t p n node o above ho hp hn hnode hlt habove heq hdepth ih
    obtain ⟨token, hchain, htoken⟩ := chain_made ho hp hlt
    have hhandle : token.handle = o.step.handle := congrArg (fun o => o.step.handle) htoken
    rw [matchOf_made ho hp hlt habove, Match.handles, List.filterMap_append, ← Match.handles, ← ih,
      chainHandles, hchain, List.filterMap_cons, hhandle, chainHandles]
    cases he : o.step.handle with
    | none => simp [he]
    | some i => simp [he]

end

section
variable (F : m.Forest net)
include F

/-- A token that a node made stands below the left token that it was made for. -/
theorem Made.leftOf {n : NodeId} {left t : TokenId} {e : Extension} (h : m.Made n left t e) :
    left < t ∧ m.LeftOf net n left := by
  obtain ⟨depth, ho⟩ := h
  obtain ⟨p, n', node, above, hp, hn, hnode, hlt, habove, heq, -⟩ := F.made ho (F.ne_root ho rfl)
  cases hp
  cases hn
  exact ⟨hlt, node, hnode, above, habove, heq⟩

/-- What a token carries stands at the end of its match. -/
theorem Made.matchOf {n : NodeId} {left t : TokenId} {e : Extension} (h : m.Made n left t e) :
    m.matchOf t = m.matchOf left ++ [e] := by
  obtain ⟨hlt, node, -, above, habove, -⟩ := h.leftOf F
  obtain ⟨depth, ho⟩ := h
  exact matchOf_made ho rfl hlt habove

end

section
variable (W : net.WellFormed) (F : m.Forest net) {t : TokenId} {o : Origin}
  (h : m.origin? t = some o)
include W F h

/-- The variables of a match that ends in a token. -/
theorem binding_eq (store : WorkingMemory) (scope : List (String × Place)) :
    m.binding store scope t = (m.matchOf t).binding store scope := by
  have hfacts : (m.binding store scope t).facts = ((m.matchOf t).binding store scope).facts := by
    refine congrArg (scope.filterMap ·) (funext fun entry => ?_)
    obtain ⟨name, place⟩ := entry
    cases place with
    | fact depth => exact congrArg (Option.map (name, ·)) (handleAt?_eq W F h depth)
    | field depth field => rfl
    | result depth => rfl
  have hvalues : (m.binding store scope t).values = ((m.matchOf t).binding store scope).values := by
    have hview := congrArg View.value (view_eq W F h store)
    refine congrArg (scope.filterMap ·) (funext fun entry => ?_)
    obtain ⟨name, place⟩ := entry
    cases place with
    | fact depth => rfl
    | field depth field => exact congrArg (fun value => some (name, value (.field depth field))) hview
    | result depth => exact congrArg (fun value => some (name, value (.result depth))) hview
  have hhandles : (m.binding store scope t).handles = ((m.matchOf t).binding store scope).handles :=
    chainHandles_eq F h
  calc m.binding store scope t = ⟨(m.binding store scope t).facts, (m.binding store scope t).values,
        (m.binding store scope t).handles⟩ := rfl
    _ = (m.matchOf t).binding store scope := by rw [hfacts, hvalues, hhandles]

end

end Matching

/-! ## Terminals -/

/-- Whether a token stands at a terminal. -/
def Matching.Stands (m : Matching) (net : Network) (τ : TerminalId) (t : TokenId) : Prop :=
  ∃ terminal, net.terminal? τ = some terminal ∧ m.LiveAt t terminal.node

/-- The events lead from the tokens that stood at terminals to those that stand there now, and tell
    nothing twice. -/
def Replays (before after : TerminalId → TokenId → Prop) : List MatchEvent → Prop
  | [] => ∀ τ t, before τ t ↔ after τ t
  | .formed τ t :: rest =>
    ¬ before τ t ∧ Replays (fun τ' t' => before τ' t' ∨ (τ' = τ ∧ t' = t)) after rest
  | .broken τ t :: rest =>
    before τ t ∧ Replays (fun τ' t' => before τ' t' ∧ ¬ (τ' = τ ∧ t' = t)) after rest

namespace Replays

variable {before before' mid after after' : TerminalId → TokenId → Prop}

theorem congr (hb : ∀ τ t, before τ t ↔ before' τ t) (ha : ∀ τ t, after τ t ↔ after' τ t)
    {events : List MatchEvent} (h : Replays before after events) :
    Replays before' after' events := by
  induction events generalizing before before' with
  | nil => exact fun τ t => (hb τ t).symm.trans ((h τ t).trans (ha τ t))
  | cons e rest ih =>
    cases e with
    | formed τ t =>
      exact ⟨fun h' => h.1 ((hb τ t).2 h'), ih (fun τ' t' => or_congr_left (hb τ' t')) h.2⟩
    | broken τ t =>
      exact ⟨(hb τ t).1 h.1, ih (fun τ' t' => and_congr_left fun _ => hb τ' t') h.2⟩

theorem append {events events' : List MatchEvent} (h : Replays before mid events)
    (h' : Replays mid after events') : Replays before after (events ++ events') := by
  induction events generalizing before with
  | nil => exact h'.congr (fun τ t => (h τ t).symm) fun _ _ => Iff.rfl
  | cons e rest ih =>
    cases e with
    | formed τ t => exact ⟨h.1, ih h.2⟩
    | broken τ t => exact ⟨h.1, ih h.2⟩

/-- A token that stood nowhere comes to terminals. -/
theorem formed {terminals : List TerminalId} (hnodup : terminals.Nodup) {t : TokenId}
    (hno : ∀ τ ∈ terminals, ¬ before τ t) :
    Replays before (fun τ t' => before τ t' ∨ (τ ∈ terminals ∧ t' = t))
      (terminals.map fun τ => .formed τ t) := by
  induction terminals generalizing before with
  | nil => exact fun τ t' => by simp
  | cons τ rest ih =>
    obtain ⟨hτ, hrest⟩ := List.nodup_cons.1 hnodup
    refine ⟨hno τ List.mem_cons_self, ?_⟩
    refine (ih hrest fun τ' hτ' => ?_).congr (fun _ _ => Iff.rfl) fun τ' t' => ?_
    · rintro (h | ⟨rfl, -⟩)
      · exact hno τ' (List.mem_cons_of_mem τ hτ') h
      · exact hτ hτ'
    · rw [List.mem_cons, or_assoc, or_and_right]

/-- A token leaves terminals at which it stood. -/
theorem broken {terminals : List TerminalId} (hnodup : terminals.Nodup) {t : TokenId}
    (hall : ∀ τ ∈ terminals, before τ t) :
    Replays before (fun τ t' => before τ t' ∧ ¬ (τ ∈ terminals ∧ t' = t))
      (terminals.map fun τ => .broken τ t) := by
  induction terminals generalizing before with
  | nil => exact fun τ t' => by simp
  | cons τ rest ih =>
    obtain ⟨hτ, hrest⟩ := List.nodup_cons.1 hnodup
    refine ⟨hall τ List.mem_cons_self, ?_⟩
    refine (ih hrest fun τ' hτ' => ?_).congr (fun _ _ => Iff.rfl) fun τ' t' => ?_
    · refine ⟨hall τ' (List.mem_cons_of_mem τ hτ'), ?_⟩
      rintro ⟨rfl, -⟩
      exact hτ hτ'
    · rw [List.mem_cons, and_assoc, or_and_right, not_or]

end Replays

end RuleNet
