/-
  How nodes forget a fact that has left their memories.

  * `Matching.Lapsed`: a token of a fact that has left the memory of its join.
    `Sound.dropEach` takes such tokens away.
  * `Sound.tellJoins`: a join without tokens of the fact has nothing to be told.
  * `Sound.retractEach`: the other nodes are told one after the other.
  * `Sound.forget`: both, for all nodes that have to forget the fact.
-/
import RuleNet.Proofs.Matching.Part
import RuleNet.Proofs.Matching.Shelves

namespace RuleNet

/-- Nothing is amiss but for what nodes have yet to be told or to look at. -/
structure Ledger.Quiet (x : Ledger) : Prop where
  filed : ∀ h, ¬ x.unfiled h
  listed : ∀ n h, ¬ x.unlisted n h
  idle : ∀ n left, ¬ x.busy n left
  agree : ∀ a, x.agree a a

theorem Ledger.Quiet.calm {x : Ledger} (hx : x.Quiet) (net : Network) (n : NodeId) :
    x.Calm net n :=
  ⟨hx.filed, fun {c h} _ => hx.listed c h, hx.agree⟩

theorem Ledger.Quiet.tell {x : Ledger} (hx : x.Quiet) (P : NodeId → Prop) (h : Handle) :
    (x.tell P h).Quiet :=
  ⟨hx.filed, hx.listed, hx.idle, hx.agree⟩

/-- Every node and every left token. -/
def Spots.all : Spots := fun _ _ => True

theorem Moves.forget {net : Network} {Q B : Spots} {m m' : Matching} (h : Moves net Q B m m') :
    Moves net .all B m m' :=
  h.mono (fun _ => Or.inl trivial) Or.inl fun _ => trivial

/-- A step that starts nowhere makes no tokens. -/
theorem Evolves.old {net : Network} {m m' : Matching} (h : Evolves net .none m m')
    (F : m.Forest net) (F' : m'.Forest net) {t : TokenId} {o : Origin}
    (ho : m'.origin? t = some o) : m.origin? t = some o := by
  by_cases hlt : t < m.nextToken
  · exact h.survive hlt ho
  · have hroot : t ≠ rootToken := by
      rintro rfl
      exact hlt (F.lt_next F.root)
    obtain ⟨p, n, node, above, hp, hn, -⟩ := F'.made ho hroot
    rcases h.born (Nat.not_lt.1 hlt) (Matching.made_of_origin ho hn hp) with hno | ⟨-, n', l, hno, -⟩
    · exact hno.elim
    · exact hno.elim

/-- Only joins match facts. -/
theorem Chained.made_of_handle {net : Network} {x : Ledger} {m : Matching} (C : Chained net x m)
    {t : TokenId} {o : Origin} (ho : m.origin? t = some o) {h : Handle}
    (hh : o.step.handle = some h) : ∃ n left feed, o.node = some n ∧ m.Made n left t (.fact h) ∧
      net.kind? n = some (.join feed) := by
  have hroot : t ≠ rootToken := by
    rintro rfl
    obtain rfl := Option.some.inj (C.forest.root.symm.trans ho)
    cases hh
  obtain ⟨left, n, node, above, hp, hn, hnode, -⟩ := C.forest.made ho hroot
  have hmade := Matching.made_of_origin ho hn hp
  have hkind := Network.kind?_eq hnode
  have hcarries := C.carries hmade hkind
  cases hk : node.kind with
  | join feed =>
    rw [hk] at hcarries hkind
    obtain ⟨i, hi⟩ := hcarries
    rw [hi] at hh hmade
    cases hh
    exact ⟨n, left, feed, hn, hmade, hkind⟩
  | accumulate feed fold having =>
    rw [hk] at hcarries
    obtain ⟨v, hv⟩ := hcarries
    rw [hv] at hh
    cases hh
  | absent feed =>
    rw [hk] at hcarries
    rw [show o.step = .nothing from hcarries] at hh
    cases hh
  | present feed =>
    rw [hk] at hcarries
    rw [show o.step = .nothing from hcarries] at hh
    cases hh
  | predicate p scope =>
    rw [hk] at hcarries
    rw [show o.step = .nothing from hcarries] at hh
    cases hh

namespace Matching

/-- A token that a join made of a fact which has left its memory. -/
def Lapsed (m : Matching) (net : Network) (h : Handle) (t : TokenId) : Prop :=
  ∃ n left feed, m.Made n left t (.fact h) ∧ net.kind? n = some (.join feed) ∧
    h ∉ m.members feed.alpha

/-- There is nothing to take away of a token that has gone. -/
theorem delete_of_dead {net : Network} {m : Matching} {t : TokenId} (h : m.origin? t = none) :
    m.delete net t = m := by
  have hno : ¬ m.tokens.contains t = true := by
    rw [Std.ExtTreeMap.contains_eq_isSome_getElem?, Bool.not_eq_true, Option.isSome_eq_false_iff,
      Option.isNone_iff_eq_none]
    exact Option.map_eq_none_iff.1 h
  rw [delete, subtree, if_neg hno]
  rfl

end Matching

section
variable {net : Network} {store : WorkingMemory} {x : Ledger} {m m' : Matching} {h : Handle}
  (W : net.WellFormed)
include W

/-! ## Tokens -/

/-- A join loses a token of a fact that has left its memory. -/
theorem Sound.dropLapsed (S : Sound net store x m) (hidle : ∀ n left, ¬ x.busy n left)
    {t : TokenId} (ht : m.Lapsed net h t) (hm' : m.delete net t = m') :
    Sound net store x m' ∧ Moves net .all .none m m' ∧ m'.origin? t = none := by
  obtain ⟨n, left, feed, hmade, hkind, hno⟩ := ht
  have D := (S.mono (x.le_hold n left)).delete W hmade (Or.inr ⟨rfl, rfl⟩)
  rw [hm'] at D
  refine ⟨D.sound.release_one fun {node} hn hl => ?_, D.moves.forget, ?_⟩
  · have hl₀ := D.moves.left_of W S.forest D.sound.forest (fun h => h.1) hn hl
    have hkept := D.moves.keeps_left W S.forest D.sound.forest (fun h => h.1) hn hl₀
    have hjoin : node.kind = .join feed := Option.some.inj ((Network.kind?_eq hn).symm.trans hkind)
    have hs := S.settled hn hl₀ (hidle n left)
    rw [D.moves.members, hkept.2, D.about]
    rw [hjoin] at hs ⊢
    obtain ⟨hr, hc, htwice⟩ := hs
    refine ⟨hr, fun i => ⟨?_, fun hi ha => ?_⟩, fun t₁ t₂ i h₁ h₂ =>
      htwice t₁ t₂ i (D.made.1 h₁).1 (D.made.1 h₂).1⟩
    · rintro ⟨t', ht'⟩
      exact (hc i).1 ⟨t', (D.made.1 ht').1⟩
    · refine ((hc i).2 hi ha).imp_left ?_
      rintro ⟨t', ht'⟩
      refine ⟨t', D.made.2 ⟨ht', ?_⟩⟩
      rintro rfl
      obtain ⟨-, -, heq⟩ := ht'.unique hmade
      cases heq
      exact hno hi
  · cases ho : m'.origin? t with
    | none => rfl
    | some o =>
      have hold := D.moves.toEvolves.old S.forest D.sound.forest ho
      obtain ⟨depth, hmade⟩ := hmade
      obtain rfl := Option.some.inj (hold.symm.trans hmade)
      exact absurd rfl (D.made.1 ⟨depth, ho⟩).2

/-- Joins lose tokens of a fact that has left their memories; some may have gone with others. -/
theorem Sound.dropEach {ts : List TokenId} (S : Sound net store x m)
    (hidle : ∀ n left, ¬ x.busy n left)
    (hts : ∀ t ∈ ts, ∀ o, m.origin? t = some o → m.Lapsed net h t)
    (hm' : ts.foldl (fun m t => m.delete net t) m = m') :
    Sound net store x m' ∧ Moves net .all .none m m' ∧ ∀ t ∈ ts, m'.origin? t = none := by
  induction ts generalizing m with
  | nil =>
    subst hm'
    exact ⟨S, .refl S.forest False.elim, fun _ ht => absurd ht List.not_mem_nil⟩
  | cons t rest ih =>
    obtain ⟨m₁, hm₁⟩ : ∃ m₁, m.delete net t = m₁ := ⟨_, rfl⟩
    have hfirst : Sound net store x m₁ ∧ Moves net .all .none m m₁ ∧ m₁.origin? t = none := by
      cases ho : m.origin? t with
      | none =>
        rw [Matching.delete_of_dead ho] at hm₁
        subst hm₁
        exact ⟨S, .refl S.forest False.elim, ho⟩
      | some o => exact S.dropLapsed W hidle (hts t List.mem_cons_self o ho) hm₁
    obtain ⟨S₁, M, hgone⟩ := hfirst
    rw [List.foldl_cons, hm₁] at hm'
    obtain ⟨S', M', hall⟩ := ih S₁ (fun s hs o ho => by
      have hold := M.toEvolves.old S.forest S₁.forest ho
      obtain ⟨n, left, feed, ⟨depth, hmade⟩, hkind, hno⟩ := hts s (List.mem_cons_of_mem t hs) o hold
      obtain rfl := Option.some.inj (hold.symm.trans hmade)
      exact ⟨n, left, feed, ⟨depth, ho⟩, hkind, by rw [M.members]; exact hno⟩) hm'
    refine ⟨S', M.trans M', fun s hs => ?_⟩
    rcases List.mem_cons.1 hs with rfl | hs
    · cases ho : m'.origin? s with
      | none => rfl
      | some o => exact absurd (M'.toEvolves.old S₁.forest S'.forest ho) (by rw [hgone]; nofun)
    · exact hall s hs

/-! ## Nodes -/

omit W in
/-- Joins that have no tokens of a fact that has left their memories have nothing to be told. -/
theorem Sound.tellJoins {P : NodeId → Prop} (S : Sound net store x m)
    (hP : ∀ n, P n → ∃ feed, net.kind? n = some (.join feed) ∧ h ∉ m.members feed.alpha ∧
      ∀ left t, ¬ m.Made n left t (.fact h)) : Sound net store (x.tell P h) m := by
  refine S.tell fun {n node left feed} hp hn _ _ hf => ?_
  obtain ⟨feed', hkind, hno, hmade⟩ := hP n hp
  have hjoin : node.kind = .join feed' := Option.some.inj ((Network.kind?_eq hn).symm.trans hkind)
  rw [hjoin] at hf ⊢
  cases hf
  refine iff_of_false ?_ fun ha => hno ha.1
  rintro ⟨t, ht⟩
  exact hmade left t ht

/-- The spots of nodes that may make tokens when a fact goes. -/
def Spots.reopening (net : Network) (P : NodeId → Prop) : Spots :=
  fun n _ => P n ∧ ∃ kind, net.kind? n = some kind ∧ kind.reopens = true

/-- Nodes other than joins are told of a fact that has left their memories. -/
theorem Sound.retractEach {ns : List NodeId} (S : Sound net store x m) (K : Stocked net store m)
    (hx : x.Quiet)
    (hns : ∀ n ∈ ns, ∃ node feed, net.node? n = some node ∧ node.kind.feed? = some feed ∧
      node.kind.isJoin = false ∧ h ∉ m.members feed.alpha)
    (hm' : ns.foldl (Matching.retractRight net store h) m = m') :
    Sound net store (x.tell (· ∈ ns) h) m' ∧ Moves net .all (.reopening net (· ∈ ns)) m m' := by
  induction ns generalizing m x with
  | nil =>
    subst hm'
    refine ⟨S.tell fun hn => absurd hn List.not_mem_nil, .refl S.forest fun _ => trivial⟩
  | cons n rest ih =>
    obtain ⟨node, feed, hn, hf, hjoin, hno⟩ := hns n List.mem_cons_self
    obtain ⟨S₁, M⟩ := S.retractRight W K (hx.calm net n) (hx.listed n h) hn hf hjoin (hx.idle n) hno
      rfl
    rw [List.foldl_cons] at hm'
    obtain ⟨S', M'⟩ := ih S₁ (K.of_alphas M.alphas) (hx.tell ..)
      (fun k hk => by
        rw [M.members]
        exact hns k (List.mem_cons_of_mem n hk)) hm'
    refine ⟨S'.mono ⟨rfl, rfl, rfl, id, id, ?_, id, id⟩,
      (M.mono (fun _ => Or.inl trivial) ?_ fun _ => trivial).trans
        (M'.mono (fun _ => Or.inl trivial) ?_ fun _ => trivial)⟩
    · rintro k i ⟨⟨hl, hk⟩, hrest⟩
      refine ⟨hl, ?_⟩
      rintro ⟨hmem, rfl⟩
      rcases List.mem_cons.1 hmem with rfl | hmem
      · exact hk ⟨rfl, rfl⟩
      · exact hrest ⟨hmem, rfl⟩
    · rintro k l ⟨hr, rfl⟩
      exact Or.inl ⟨List.mem_cons_self, _, Network.kind?_eq hn, hr⟩
    · exact fun hk => Or.inl ⟨List.mem_cons_of_mem n hk.1, hk.2⟩

/-- Nodes forget a fact that has left their memories, once joins have no tokens of it. -/
theorem Sound.forget {P : NodeId → Prop} {ns : List NodeId} (S : Sound net store x m)
    (K : Stocked net store m) (hx : x.Quiet)
    (hP : ∀ n, P n → ∃ node feed, net.node? n = some node ∧ node.kind.feed? = some feed ∧
      h ∉ m.members feed.alpha)
    (hgone : ∀ n feed left t, P n → net.kind? n = some (.join feed) → ¬ m.Made n left t (.fact h))
    (hns : ∀ n, n ∈ ns ↔ P n ∧ (net.kind? n).any NodeKind.isJoin = false)
    (hm' : ns.foldl (Matching.retractRight net store h) m = m') :
    Sound net store (x.tell P h) m' ∧ Moves net .all (.reopening net P) m m' := by
  have hjoin : ∀ {kind : NodeKind}, kind.isJoin = true → ∃ feed, kind = .join feed := by
    intro kind hk
    cases kind with
    | join feed => exact ⟨feed, rfl⟩
    | _ => cases hk
  have S₁ : Sound net store
      (x.tell (fun n => P n ∧ (net.kind? n).any NodeKind.isJoin = true) h) m := by
    refine S.tellJoins fun n hn => ?_
    obtain ⟨node, feed, hnode, hf, hno⟩ := hP n hn.1
    have hkind := Network.kind?_eq hnode
    obtain ⟨feed', hfeed⟩ := hjoin (by simpa only [hkind, Option.any_some] using hn.2)
    rw [hfeed] at hkind hf
    cases hf
    exact ⟨feed, hkind, hno, fun left t => hgone n feed left t hn.1 hkind⟩
  obtain ⟨S', M⟩ := S₁.retractEach W K (hx.tell ..) (fun n hn => by
    obtain ⟨hp, hnojoin⟩ := (hns n).1 hn
    obtain ⟨node, feed, hnode, hf, hno⟩ := hP n hp
    rw [Network.kind?_eq hnode, Option.any_some] at hnojoin
    exact ⟨node, feed, hnode, hf, hnojoin, hno⟩) hm'
  refine ⟨S'.mono ⟨rfl, rfl, rfl, id, id, ?_, id, id⟩,
    M.mono (fun _ => Or.inl trivial) (fun hn => ?_) fun _ => trivial⟩
  · rintro n i ⟨⟨hl, hnojoin⟩, hnot⟩
    refine ⟨hl, ?_⟩
    rintro ⟨hp, rfl⟩
    cases hk : (net.kind? n).any NodeKind.isJoin with
    | true => exact hnojoin ⟨⟨hp, hk⟩, rfl⟩
    | false => exact hnot ⟨(hns n).2 ⟨hp, hk⟩, rfl⟩
  · exact Or.inl ⟨((hns _).1 hn.1).1, hn.2⟩

end

end RuleNet
