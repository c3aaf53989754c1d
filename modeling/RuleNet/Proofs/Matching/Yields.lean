/-
  Tasks that end: walks up, and tokens that go.

  * `Yields`: tasks end, and leave a matching where nothing refers to what is yet to be made.
  * `yields_climb`: a walk up ends at the root.
  * `yields_delete`: a token goes with everything below it, each token once, and what remains is as if the
    lowest had gone first.
-/
import Mathlib.Data.List.Basic
import RuleNet.Proofs.Matching.Layered

namespace RuleNet

open Matching (Extension)

/-- Tasks end, and leave a matching where nothing refers to what is yet to be made. -/
structure Yields (net : Network) (store : WorkingMemory) (ts : List Task) (m m' : Matching) :
    Prop where
  runs : Runs net store ts m m'
  layered : m'.Layered
  grows : m.nextToken ≤ m'.nextToken

namespace Yields

variable {net : Network} {store : WorkingMemory} {ts us : List Task} {task : Task}
  {m m' m'' : Matching}

theorem nil (L : m.Layered) : Yields net store [] m m := ⟨.done m, L, Nat.le_refl _⟩

theorem append (h : Yields net store ts m m') (h' : Yields net store us m' m'') :
    Yields net store (ts ++ us) m m'' :=
  ⟨h.runs.append h'.runs, h'.layered, Nat.le_trans h.grows h'.grows⟩

theorem cons (h : Yields net store [task] m m') (h' : Yields net store ts m' m'') :
    Yields net store (task :: ts) m m'' :=
  h.append h'

/-- A task ends if what it calls does. -/
theorem call (hwork : task.work net store m = (ts, m')) (h : Yields net store ts m' m'')
    (hgrows : m.nextToken ≤ m'.nextToken) : Yields net store [task] m m'' := by
  refine ⟨.step ?_, h.layered, Nat.le_trans hgrows h.grows⟩
  rw [hwork, List.append_nil]
  exact h.runs

/-- A task that does nothing ends. -/
theorem idle (L : m.Layered) (hwork : task.work net store m = ([], m)) :
    Yields net store [task] m m :=
  call hwork (nil L) (Nat.le_refl _)

/-- A task that calls another one in some cases ends if that one does. -/
theorem perhaps {c : Prop} [Decidable c] {next : Task} {f : Matching → Matching}
    (L : m'.Layered) (hnext : m'.nextToken = m.nextToken)
    (hwork : task.work net store m = (if c then [next] else [], m'))
    (h : Yields net store [next] m' (f m')) :
    Yields net store [task] m (if c then f m' else m') := by
  refine call hwork ?_ (Nat.le_of_eq hnext.symm)
  split
  · exact h
  · exact nil L

/-- What tasks do for each item they do for one after the other, if what all rely on is kept. -/
theorem each_of {α : Type} {f : α → List Task} {g : Matching → α → Matching}
    {P : Matching → Prop} {items : List α} (L : m.Layered) (hm : P m)
    (h : ∀ a ∈ items, ∀ m', m'.Layered → m.nextToken ≤ m'.nextToken → P m' →
      Yields net store (f a) m' (g m' a) ∧ P (g m' a)) :
    Yields net store (items.flatMap f) m (items.foldl g m) := by
  induction items generalizing m with
  | nil => exact nil L
  | cons a rest ih =>
    obtain ⟨hfirst, hm'⟩ := h a List.mem_cons_self m L (Nat.le_refl _) hm
    exact hfirst.append (ih hfirst.layered hm' fun b hb m' L' hle =>
      h b (List.mem_cons_of_mem a hb) m' L' (Nat.le_trans hfirst.grows hle))

theorem each {α : Type} {f : α → Task} {g : Matching → α → Matching} {items : List α}
    (L : m.Layered) (h : ∀ a ∈ items, ∀ m', m'.Layered → m.nextToken ≤ m'.nextToken →
      Yields net store [f a] m' (g m' a)) :
    Yields net store (items.map f) m (items.foldl g m) := by
  rw [List.map_eq_flatMap]
  exact each_of (P := fun _ => True) L trivial fun a ha m' L' hle _ => ⟨h a ha m' L' hle, trivial⟩

end Yields

/-! ## Walks -/

section
variable {net : Network} {store : WorkingMemory} {m : Matching}

/-- A walk up ends at the root. -/
theorem yields_climb (L : m.Layered) (t : TokenId) : Yields net store [.climb t] m m := by
  induction t using Nat.strongRecOn with
  | ind t ih =>
    refine Yields.call rfl ?_ (Nat.le_refl _)
    cases hparent : (m.tokens[t]?).bind Token.parent with
    | none => exact .nil L
    | some p =>
      obtain ⟨token, htoken, hp⟩ := Option.bind_eq_some_iff.1 hparent
      exact ih p (L.parent htoken hp)

theorem yields_climbs (L : m.Layered) (ts : List TokenId) :
    Yields net store (ts.map .climb) m m := by
  induction ts with
  | nil => exact .nil L
  | cons t rest ih => exact (yields_climb L t).cons ih

end

/-! ## What a token leaves behind -/

namespace Matching

variable {net : Network} {m m' : Matching} {s t x : TokenId} {token : Token}

/-- How a token goes does not depend on its children. -/
theorem strip_congr {token' : Token} (h : token'.origin = token.origin) :
    m.strip net t token' = m.strip net t token := by
  have hparent : token'.parent = token.parent := congrArg Origin.parent h
  have hnode : token'.node = token.node := congrArg Origin.node h
  have hhandle : token'.handle = token.handle := congrArg (fun o => o.step.handle) h
  unfold strip
  rw [hparent, hnode, hhandle]

/-- A token that is missing makes no difference to how another one goes. -/
theorem strip_detach (m : Matching) (s t : TokenId) (token : Token) :
    (m.detach s).strip net t token = (m.strip net t token).detach s := by
  have hlefts : ∀ (cs : List NodeId) (m : Matching),
      cs.foldl (fun m child => m.removeLeft child t) (m.detach s) =
        (cs.foldl (fun m child => m.removeLeft child t) m).detach s := by
    intro cs
    induction cs with
    | nil => exact fun _ => rfl
    | cons c rest ih => exact fun m => ih (m.removeLeft c t)
  have hmodify : ∀ (tokens : Std.ExtTreeMap TokenId Token) (p : TokenId) (f : Token → Token),
      (tokens.erase s).modify p f = (tokens.modify p f).erase s := by
    intro tokens p f
    refine Std.ExtTreeMap.ext_getElem? fun k => ?_
    simp only [Std.ExtTreeMap.getElem?_modify, Std.ExtTreeMap.getElem?_erase, Nat.compare_eq_eq]
    by_cases hs : s = k
    · subst hs
      simp only [if_true]
      split
      · next hp =>
        rw [if_pos hp.symm]
        rfl
      · rfl
    · simp only [if_neg hs]
      split
      · next hp =>
        subst hp
        rw [if_neg hs]
      · rfl
  unfold strip
  cases token.node with
  | none =>
    cases token.parent with
    | none => rfl
    | some p =>
      dsimp only [detach]
      rw [hmodify]
  | some n =>
    dsimp only
    rw [show (m.detach s).note ((net.terminalsOf n).map fun terminal => .broken terminal t) =
      (m.note ((net.terminalsOf n).map fun terminal => .broken terminal t)).detach s from rfl, hlefts]
    cases token.parent with
    | none => rfl
    | some p =>
      dsimp only [detach]
      rw [hmodify]

theorem dropToken_detach (m : Matching) (hne : t ≠ s) :
    (m.detach s).dropToken net t = (m.dropToken net t).detach s := by
  have hget : (m.detach s).tokens[t]? = m.tokens[t]? := by
    have hne' : ¬ s = t := fun h => hne h.symm
    simp only [detach, Std.ExtTreeMap.getElem?_erase, Nat.compare_eq_eq, if_neg hne']
  cases h : m.tokens[t]? with
  | none =>
    simp only [dropToken, hget, h]
  | some token =>
    have hswap : (m.detach s).detach t = (m.detach t).detach s := by
      simp only [detach]
      congr 1
      refine Std.ExtTreeMap.ext_getElem? fun k => ?_
      simp only [Std.ExtTreeMap.getElem?_erase]
      split <;> split <;> rfl
    rw [dropToken_eq_strip h, dropToken_eq_strip (hget.trans h), hswap, strip_detach]

theorem dropTokens_detach {ts : List TokenId} (hno : s ∉ ts) (m : Matching) :
    ts.foldl (dropToken net) (m.detach s) = (ts.foldl (dropToken net) m).detach s := by
  induction ts generalizing m with
  | nil => rfl
  | cons t rest ih =>
    rw [List.mem_cons, not_or] at hno
    rw [List.foldl_cons, dropToken_detach m (Ne.symm hno.1), ih hno.2]
    rfl

/-- A token changes as others go only if it is one of them or above one. -/
theorem getElem?_dropTokens {ts : List TokenId} (hno : x ∉ ts)
    (hapart : ∀ t ∈ ts, ∀ o, m.origin? t = some o → o.parent ≠ some x) :
    (ts.foldl (dropToken net) m).tokens[x]? = m.tokens[x]? := by
  induction ts generalizing m with
  | nil => rfl
  | cons t rest ih =>
    rw [List.mem_cons, not_or] at hno
    have D := @drops_dropToken net m t
    refine (ih hno.2 fun u hu o ho => ?_).trans ?_
    · exact hapart u (List.mem_cons_of_mem t hu) o (D.before ho).1
    · cases h : m.tokens[t]? with
      | none => simp only [dropToken, h]
      | some token =>
        have hparent : token.parent ≠ some x :=
          hapart t List.mem_cons_self _ (origin?_of_live h)
        have hne : ¬ t = x := fun e => hno.1 e.symm
        rw [dropToken_eq_strip h, getElem?_strip]
        simp only [if_neg hparent, Option.map_id', detach, Std.ExtTreeMap.getElem?_erase,
          Nat.compare_eq_eq, if_neg hne]

/-! ## Subtrees -/

/-- A subtree holds live tokens, none older than its top. -/
theorem live_of_mem_subtree (t : TokenId) :
    ∀ s ∈ m.subtree t, t ≤ s ∧ ∃ token, m.tokens[s]? = some token := by
  induction t using Matching.subtree.induct m with
  | case1 t hlive ih =>
    intro s hs
    rw [subtree, if_pos hlive] at hs
    rcases List.mem_append.1 hs with hs | hs
    · obtain ⟨c, -, hs⟩ := List.mem_flatMap.1 hs
      exact ⟨Nat.le_trans (Nat.le_of_lt c.2.1) (ih c s hs).1, (ih c s hs).2⟩
    · obtain rfl := List.mem_singleton.1 hs
      rw [Std.ExtTreeMap.contains_eq_isSome_getElem?] at hlive
      exact ⟨Nat.le_refl _, Option.isSome_iff_exists.1 hlive⟩
  | case2 t hdead =>
    intro s hs
    rw [subtree, if_neg hdead] at hs
    cases hs

theorem subtree_of_dead (h : m.tokens[t]? = none) : m.subtree t = [] := by
  rw [subtree, if_neg]
  rw [Std.ExtTreeMap.contains_eq_isSome_getElem?, h]
  exact Bool.noConfusion

namespace Layered

variable (L : m.Layered)
include L

theorem subtree_eq (h : m.tokens[t]? = some token) :
    m.subtree t = token.children.flatMap m.subtree ++ [t] :=
  subtree_eq_of_later h fun _ hc => L.child h hc

theorem parent_of_mem_subtree (t : TokenId) : ∀ s ∈ m.subtree t,
    s = t ∨ ∃ p ∈ m.subtree t, ∀ o, m.origin? s = some o → o.parent = some p :=
  parent_of_mem_subtree_of_child (fun h hc => L.above h hc) t

/-- A subtree is as it was if its tokens are, and no others have come. -/
theorem subtree_congr (hnext : m'.nextToken = m.nextToken)
    (hdead : ∀ {x : TokenId}, m.tokens[x]? = none → m'.tokens[x]? = none) (t : TokenId)
    (hsame : ∀ x ∈ m.subtree t, m'.tokens[x]? = m.tokens[x]?) : m'.subtree t = m.subtree t := by
  induction t using Matching.subtree.induct m with
  | case1 t hlive ih =>
    rw [Std.ExtTreeMap.contains_eq_isSome_getElem?] at hlive
    obtain ⟨token, htoken⟩ := Option.isSome_iff_exists.1 hlive
    have hchild : ∀ c ∈ token.children, t < c ∧ c < m.nextToken := fun c hc => L.child htoken hc
    rw [L.subtree_eq htoken] at hsame ⊢
    have htoken' : m'.tokens[t]? = some token :=
      (hsame t (List.mem_append_right _ (List.mem_singleton_self t))).trans htoken
    rw [subtree_eq_of_later htoken' fun c hc => hnext ▸ hchild c hc]
    congr 1
    refine List.flatMap_congr fun c hc => ih ⟨c, hchild c hc⟩ fun x hx => ?_
    exact hsame x (List.mem_append_left _ (List.mem_flatMap.2 ⟨c, hc, hx⟩))
  | case2 t hno =>
    have hnone : m.tokens[t]? = none := by
      rw [Std.ExtTreeMap.contains_eq_isSome_getElem?, Bool.not_eq_true] at hno
      exact Option.not_isSome_iff_eq_none.1 (Bool.eq_false_iff.1 hno)
    rw [subtree_of_dead hnone, subtree_of_dead (hdead hnone)]

/-- Two children have nothing in common below them. -/
theorem disjoint_subtree (h : m.tokens[t]? = some token) {c d : TokenId} (hc : c ∈ token.children)
    (hd : d ∈ token.children) (hne : c ≠ d) : ∀ x ∈ m.subtree c, x ∉ m.subtree d := by
  intro x
  induction x using Nat.strongRecOn with
  | ind x ih =>
    intro hxc hxd
    obtain ⟨-, below, hbelow⟩ := live_of_mem_subtree c x hxc
    have ho : m.origin? x = some below.origin := origin?_of_live hbelow
    have houtside : ∀ {e}, e ∈ token.children → t ∉ m.subtree e := fun he ht =>
      Nat.not_lt.2 (live_of_mem_subtree _ t ht).1 (L.child h he).1
    rcases L.parent_of_mem_subtree c x hxc with rfl | ⟨p, hp, hparent⟩
    · rcases L.parent_of_mem_subtree d x hxd with rfl | ⟨q, hq, hparent⟩
      · exact hne rfl
      · obtain rfl := Option.some.inj ((L.above h hc _ ho).symm.trans (hparent _ ho))
        exact houtside hd hq
    · rcases L.parent_of_mem_subtree d x hxd with rfl | ⟨q, hq, hparent'⟩
      · obtain rfl := Option.some.inj ((L.above h hd _ ho).symm.trans (hparent _ ho))
        exact houtside hc hp
      · obtain rfl := Option.some.inj ((hparent _ ho).symm.trans (hparent' _ ho))
        exact ih p (L.parent hbelow (hparent _ ho)) hp hq

/-- A token goes last of all, or first, if what is left of it goes last. -/
theorem delete_eq (h : m.tokens[t]? = some token) : m.delete net t =
    ((token.children.flatMap m.subtree).foldl (Matching.dropToken net) (m.detach t)).strip net t
      token := by
  have hno : t ∉ token.children.flatMap m.subtree := fun ht => by
    obtain ⟨c, hc, ht⟩ := List.mem_flatMap.1 ht
    exact Nat.not_lt.2 (live_of_mem_subtree c t ht).1 (L.child h hc).1
  rw [Matching.delete, L.subtree_eq h, List.foldl_append, dropTokens_detach hno]
  have D := @drops_dropTokens net (token.children.flatMap m.subtree) m
  generalize (token.children.flatMap m.subtree).foldl (Matching.dropToken net) m = m₁ at D ⊢
  have ho : m₁.origin? t = some token.origin := by
    rw [D.origin, if_neg hno]
    exact origin?_of_live h
  obtain ⟨token', htoken', horigin⟩ := origin?_eq_some.1 ho
  rw [List.foldl_cons, List.foldl_nil, dropToken_eq_strip htoken', strip_congr horigin]

end Layered

end Matching

/-! ## Tokens that go -/

section
variable {net : Network} {store : WorkingMemory} {m : Matching} {t : TokenId}

/-- The children of a token go one after the other, each with everything below it. -/
theorem yields_siblings {token : Token} (L : m.Layered) (htoken : m.tokens[t]? = some token)
    (hdelete : ∀ c ∈ token.children, ∀ m' : Matching, m'.Layered → m'.nextToken = m.nextToken →
      Yields net store [.delete c] m' (m'.delete net c))
    {cs : List TokenId} (hcs : cs.Sublist token.children) {m' : Matching} (L' : m'.Layered)
    (hnext : m'.nextToken = m.nextToken)
    (hdead : ∀ {x : TokenId}, m.tokens[x]? = none → m'.tokens[x]? = none)
    (hsame : ∀ c ∈ cs, ∀ x ∈ m.subtree c, m'.tokens[x]? = m.tokens[x]?) :
    Yields net store (cs.map .delete) m'
      ((cs.flatMap m.subtree).foldl (Matching.dropToken net) m') := by
  induction cs generalizing m' with
  | nil => exact .nil L'
  | cons c rest ih =>
    have hc : c ∈ token.children := hcs.subset List.mem_cons_self
    have hone := hdelete c hc m' L' hnext
    have hsub : m'.subtree c = m.subtree c :=
      L.subtree_congr hnext hdead c (hsame c List.mem_cons_self)
    have hfirst : m'.delete net c = (m.subtree c).foldl (Matching.dropToken net) m' := by
      rw [Matching.delete, hsub]
    have D := @Matching.drops_dropTokens net (m.subtree c) m'
    rw [hfirst] at hone
    rw [List.flatMap_cons, List.foldl_append]
    refine hone.cons (ih ((List.sublist_cons_self c rest).trans hcs) hone.layered
      (D.nextToken.trans hnext) (fun {x} hx => ?_) fun d hd x hx => ?_)
    · have ho : m'.origin? x = none := Option.map_eq_none_iff.2 (hdead hx)
      have ho' := D.origin x
      rw [ho, ite_self] at ho'
      exact Option.map_eq_none_iff.1 ho'
    -- what is below the other children is neither below this one nor above it
    · have hdmem : d ∈ token.children := hcs.subset (List.mem_cons_of_mem c hd)
      have hne : c ≠ d := fun heq =>
        (List.nodup_cons.1 ((L.nodup htoken).sublist hcs)).1 (heq ▸ hd)
      have hapart := fun y hy => L.disjoint_subtree htoken hc hdmem hne y hy
      refine (Matching.getElem?_dropTokens (fun hxc => hapart x hxc hx) fun s hs o ho hp => ?_).trans
        (hsame d (List.mem_cons_of_mem c hd) x hx)
      have ho' : m.origin? s = some o := by
        rw [Matching.origin?, ← hsame c List.mem_cons_self s hs]
        exact ho
      rcases L.parent_of_mem_subtree c s hs with rfl | ⟨p, hpmem, hparent⟩
      · obtain rfl := Option.some.inj ((L.above htoken hc o ho').symm.trans hp)
        exact Nat.not_lt.2 (Matching.live_of_mem_subtree d _ hx).1 (L.child htoken hdmem).1
      · obtain rfl := Option.some.inj ((hparent o ho').symm.trans hp)
        exact hapart p hpmem hx

theorem yields_delete_of_dead (L : m.Layered) (h : m.tokens[t]? = none) :
    Yields net store [.delete t] m (m.delete net t) := by
  have hwork : (Task.delete t).work net store m = ([], m) := by simp only [Task.work, h]
  rw [Matching.delete, Matching.subtree_of_dead h]
  exact .idle L hwork

/-- A token goes with everything below it. -/
theorem yields_delete (L : m.Layered) (t : TokenId) :
    Yields net store [.delete t] m (m.delete net t) := by
  obtain ⟨k, hk⟩ : ∃ k, m.nextToken ≤ t + k := ⟨m.nextToken, Nat.le_add_left _ _⟩
  -- by induction on how many tokens may be below it
  induction k generalizing m t with
  | zero =>
    have hdead : m.tokens[t]? = none := Option.eq_none_iff_forall_ne_some.2 fun token htoken =>
      Nat.not_lt.2 hk (L.token htoken)
    exact yields_delete_of_dead L hdead
  | succ k ih =>
    cases htoken : m.tokens[t]? with
    | none => exact yields_delete_of_dead L htoken
    | some token =>
      have hwork : (Task.delete t).work net store m =
          (token.children.map .delete ++ [.strip t token], m.detach t) := by
        simp only [Task.work, htoken]
      refine .call hwork ?_ (Nat.le_refl _)
      rw [L.delete_eq htoken]
      have hbelow : ∀ c ∈ token.children, ∀ m' : Matching, m'.Layered →
          m'.nextToken = m.nextToken → Yields net store [.delete c] m' (m'.delete net c) := by
        intro c hc m' L' hnext
        refine ih L' c (hnext.symm ▸ Nat.le_trans hk ?_)
        rw [Nat.add_succ, ← Nat.succ_add]
        exact Nat.add_le_add_right (L.child htoken hc).1 k
      have hsiblings := yields_siblings L htoken hbelow (.refl token.children) (L.detach t) rfl
        (fun {x} hx => by
          simp only [Matching.detach, Std.ExtTreeMap.getElem?_erase, hx, ite_self])
        (fun c hc x hx => by
          have hlt : t < x :=
            Nat.lt_of_lt_of_le (L.child htoken hc).1 (Matching.live_of_mem_subtree c x hx).1
          rw [Matching.detach, Std.ExtTreeMap.getElem?_erase,
            if_neg fun e => Nat.ne_of_lt hlt (Nat.compare_eq_eq.1 e)])
      refine hsiblings.append (.call rfl (.nil (hsiblings.layered.strip ..)) ?_)
      exact Nat.le_of_eq (Matching.nextToken_strip _ t token).symm

theorem yields_deletes (L : m.Layered) (ts : List TokenId) :
    Yields net store (ts.map .delete) m (ts.foldl (fun m t => m.delete net t) m) :=
  .each L fun t _ _ L' _ => yields_delete L' t

end

end RuleNet
