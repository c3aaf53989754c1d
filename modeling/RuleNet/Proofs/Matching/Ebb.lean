/-
  Facts leave memories in any order.

  While facts only leave memories and results are made anew at once, what becomes of the tokens that a
  node has made depends on the members that were there in the beginning and on those that are left. In
  which order the others went, and what was made in between, does not matter.

  * `NodeKind.ebb`, `Manner.ebb`: what becomes of left tokens while facts leave.
  * `Treats.ebb`: steps that take facts out of memories treat left tokens so.
  * `Treats.restock`: it does not matter which other facts there are.
  * `Treats.ebb_trans`: two such steps are one.
  * `Treats.alike`: after two runs of such steps that leave the same members, the tokens have the same
    matches; old ones are the same, and new ones correspond to new ones.
-/
import RuleNet.Proofs.Matching.Mirror

namespace RuleNet

open Matching (Extension contribution)

section
variable {store store' : WorkingMemory} {M M₀ M₁ M₂ : AlphaId → IdSet} {μ : Match} {kind : NodeKind}
  {feed : Feed} {e : Extension}

/-! ## What goes with a match -/

/-- Members that are left go with a match as they did before. -/
theorem Match.partners_mono (hless : ∀ a, ∀ i ∈ M₁ a, i ∈ M₀ a) {i : Handle}
    (hi : i ∈ μ.partners store M₁ feed) : i ∈ μ.partners store M₀ feed := by
  rw [mem_partners] at hi ⊢
  exact hi.imp_left (hless feed.alpha i)

/-- Where nothing has gone in the end, nothing had gone in between. -/
theorem Match.partners_between (h₁ : ∀ a, ∀ i ∈ M₁ a, i ∈ M₀ a) (h₂ : ∀ a, ∀ i ∈ M₂ a, i ∈ M₁ a) :
    μ.partners store M₀ feed = μ.partners store M₂ feed ↔
      μ.partners store M₀ feed = μ.partners store M₁ feed ∧
        μ.partners store M₁ feed = μ.partners store M₂ feed := by
  refine ⟨fun heq => ?_, fun h => h.1.trans h.2⟩
  have hfirst : μ.partners store M₀ feed = μ.partners store M₁ feed := Match.partners_eq fun i =>
    ⟨fun hi => partners_mono h₂ (heq ▸ hi), partners_mono h₁⟩
  exact ⟨hfirst, hfirst.symm.trans heq⟩

theorem Match.partners_restock (hview : μ.view store' = μ.view store)
    (hsame : ∀ i ∈ M feed.alpha, store'.entry? i = store.entry? i) :
    μ.partners store' M feed = μ.partners store M feed :=
  List.filter_congr fun i hi =>
    Match.accepts_congr hview (hsame i (Std.ExtTreeSet.mem_toList.1 hi))

namespace NodeKind

/-- What a node adds to a match rests on the facts of its memory and of the match. -/
theorem extensions_restock (hμ : ∀ i ∈ μ.handles, store'.entry? i = store.entry? i)
    (hsame : ∀ a, ∀ i ∈ M a, store'.entry? i = store.entry? i) (kind : NodeKind) :
    kind.extensions store' M μ = kind.extensions store M μ := by
  have hview : μ.view store' = μ.view store := Match.view_congr hμ
  have hpartners : ∀ feed : Feed, μ.partners store' M feed = μ.partners store M feed :=
    fun feed => Match.partners_restock hview (hsame feed.alpha)
  cases kind with
  | join feed | absent feed | present feed => simp only [extensions, hpartners]
  | predicate p scope => simp only [extensions, Match.binding_congr scope hμ]
  | accumulate feed fold having =>
    have hcontributed : (μ.partners store M feed).map (contribution store' fold) =
        (μ.partners store M feed).map (contribution store fold) := List.map_congr_left fun i hi =>
      Matching.contribution_congr (hsame feed.alpha i (Match.mem_partners.1 hi).1)
    have hadmits : μ.admits store' having = μ.admits store having := by
      funext value
      simp only [Match.admits, hview]
    simp only [extensions, Match.folded?, hpartners, hcontributed, hadmits]

theorem mem_extensions_absent : e ∈ (absent feed).extensions store M μ ↔
    (∀ i, i ∉ μ.partners store M feed) ∧ e = .nothing := by
  simp only [extensions, List.isEmpty_iff, List.eq_nil_iff_forall_not_mem]
  split
  · next hnone => rw [List.mem_singleton, and_iff_right hnone]
  · next hsome => exact iff_of_false List.not_mem_nil fun h => hsome h.1

theorem mem_extensions_present : e ∈ (present feed).extensions store M μ ↔
    (∃ i, i ∈ μ.partners store M feed) ∧ e = .nothing := by
  simp only [extensions, List.isEmpty_iff]
  split
  · next hnone => simp [hnone]
  · next hsome => rw [List.mem_singleton, and_iff_right (List.exists_mem_of_ne_nil _ hsome)]

/-- What a node adds that folds nothing, before and in the end, it adds in between. -/
theorem extensions_between (hfolds : kind.folds = false) (h₁ : ∀ a, ∀ i ∈ M₁ a, i ∈ M₀ a)
    (h₂ : ∀ a, ∀ i ∈ M₂ a, i ∈ M₁ a) (he : e ∈ kind.extensions store M₀ μ)
    (he₂ : e ∈ kind.extensions store M₂ μ) : e ∈ kind.extensions store M₁ μ := by
  cases kind with
  | accumulate feed fold having => cases hfolds
  | predicate p scope => exact he
  | join feed =>
    obtain ⟨i, hi, rfl⟩ := List.mem_map.1 he₂
    exact List.mem_map_of_mem (Match.partners_mono h₂ hi)
  | absent feed =>
    rw [mem_extensions_absent] at he ⊢
    exact he.imp_left fun hnone i hi => hnone i (Match.partners_mono h₁ hi)
  | present feed =>
    rw [mem_extensions_present] at he₂ ⊢
    exact he₂.imp_left fun ⟨i, hi⟩ => ⟨i, Match.partners_mono h₂ hi⟩

/-! ## What becomes of left tokens -/

/-- What becomes of a left token that stays when facts leave memories: a result stays if the same
    facts go with the match, and any other token if the node still adds what it carries. -/
def ebb (store : WorkingMemory) (members members' : AlphaId → IdSet) (μ : Match) (kind : NodeKind) :
    Fate := match kind with
  | .accumulate feed _ _ =>
    { stays := fun _ => μ.partners store members feed = μ.partners store members' feed
      comes := fun e => μ.partners store members feed ≠ μ.partners store members' feed ∧
        e ∈ kind.extensions store members' μ
      overdue := False }
  | _ =>
    { stays := fun e => e ∈ kind.extensions store members' μ
      comes := fun e => e ∈ kind.extensions store members' μ ∧ e ∉ kind.extensions store members μ
      overdue := False }

theorem ebb_of_not_folds (hfolds : kind.folds = false) : kind.ebb store M₀ M₁ μ =
    ⟨fun e => e ∈ kind.extensions store M₁ μ,
      fun e => e ∈ kind.extensions store M₁ μ ∧ e ∉ kind.extensions store M₀ μ, False⟩ := by
  cases kind with
  | accumulate feed fold having => cases hfolds
  | _ => rfl

/-- What stays in the end has stayed twice. -/
theorem ebb_stays_trans (h₁ : ∀ a, ∀ i ∈ M₁ a, i ∈ M₀ a) (h₂ : ∀ a, ∀ i ∈ M₂ a, i ∈ M₁ a)
    (hexact : kind.folds = false → e ∈ kind.extensions store M₀ μ) :
    (kind.ebb store M₀ M₂ μ).stays e ↔
      (kind.ebb store M₀ M₁ μ).stays e ∧ (kind.ebb store M₁ M₂ μ).stays e := by
  cases hfolds : kind.folds with
  | false =>
    simp only [ebb_of_not_folds hfolds]
    exact ⟨fun he => ⟨extensions_between hfolds h₁ h₂ (hexact hfolds) he, he⟩, And.right⟩
  | true =>
    cases kind with
    | accumulate feed fold having => exact Match.partners_between h₁ h₂
    | _ => cases hfolds

/-- What comes in the end comes late, or comes early and stays. -/
theorem ebb_comes_trans (h₁ : ∀ a, ∀ i ∈ M₁ a, i ∈ M₀ a) (h₂ : ∀ a, ∀ i ∈ M₂ a, i ∈ M₁ a) :
    (kind.ebb store M₀ M₂ μ).comes e ↔ (kind.ebb store M₁ M₂ μ).comes e ∨
      ((kind.ebb store M₀ M₁ μ).comes e ∧ (kind.ebb store M₁ M₂ μ).stays e) := by
  cases hfolds : kind.folds with
  | false =>
    have hbetween := @extensions_between store M₀ M₁ M₂ μ kind e hfolds h₁ h₂
    simp only [ebb_of_not_folds hfolds]
    constructor
    · rintro ⟨he, hno⟩
      by_cases hmid : e ∈ kind.extensions store M₁ μ
      · exact .inr ⟨⟨hmid, hno⟩, he⟩
      · exact .inl ⟨he, hmid⟩
    · rintro (⟨he, hmid⟩ | ⟨⟨-, hno⟩, he⟩)
      · exact ⟨he, fun hold => hmid (hbetween hold he)⟩
      · exact ⟨he, hno⟩
  | true =>
    cases kind with
    | accumulate feed fold having =>
      have hbetween := @Match.partners_between store M₀ M₁ M₂ μ feed h₁ h₂
      have hsame : μ.partners store M₁ feed = μ.partners store M₂ feed →
          (accumulate feed fold having).extensions store M₁ μ =
            (accumulate feed fold having).extensions store M₂ μ := fun h => by
        simp only [extensions, Match.folded?, h]
      constructor
      · rintro ⟨hne, he⟩
        by_cases hmid : μ.partners store M₁ feed = μ.partners store M₂ feed
        · exact .inr ⟨⟨fun h => hne (h.trans hmid), hsame hmid ▸ he⟩, hmid⟩
        · exact .inl ⟨hmid, he⟩
      · rintro (⟨hmid, he⟩ | ⟨⟨hne, he⟩, hmid⟩)
        · exact ⟨fun h => hmid (hbetween.1 h).2, he⟩
        · exact ⟨fun h => hne (hbetween.1 h).1, hsame hmid ▸ he⟩
    | _ => cases hfolds

/-- What is due in the end stays or comes. -/
theorem mem_extensions_ebb : e ∈ kind.extensions store M₁ μ ↔
    (e ∈ kind.extensions store M₀ μ ∧ (kind.ebb store M₀ M₁ μ).stays e) ∨
      (kind.ebb store M₀ M₁ μ).comes e := by
  cases hfolds : kind.folds with
  | false =>
    simp only [ebb_of_not_folds hfolds]
    by_cases he : e ∈ kind.extensions store M₀ μ <;> simp [he]
  | true =>
    cases kind with
    | accumulate feed fold having =>
      simp only [ebb]
      by_cases hsame : μ.partners store M₀ feed = μ.partners store M₁ feed
      · simp [extensions, Match.folded?, hsame]
      · simp [hsame]
    | _ => cases hfolds

theorem ebb_restock (hμ : ∀ i ∈ μ.handles, store'.entry? i = store.entry? i)
    (hsame : ∀ a, ∀ i ∈ M₀ a, store'.entry? i = store.entry? i)
    (hless : ∀ a, ∀ i ∈ M₁ a, i ∈ M₀ a) (kind : NodeKind) :
    kind.ebb store' M₀ M₁ μ = kind.ebb store M₀ M₁ μ := by
  have hsame' : ∀ a, ∀ i ∈ M₁ a, store'.entry? i = store.entry? i := fun a i hi =>
    hsame a i (hless a i hi)
  have hview : μ.view store' = μ.view store := Match.view_congr hμ
  have hbefore := @extensions_restock store store' M₀ μ hμ hsame
  have hafter := @extensions_restock store store' M₁ μ hμ hsame'
  cases kind with
  | accumulate feed fold having =>
    simp only [ebb, hafter, Match.partners_restock hview (hsame feed.alpha),
      Match.partners_restock hview (hsame' feed.alpha)]
  | _ => simp only [ebb, hbefore, hafter]

/-- Of what a node has made, the same stays as when facts come and go. -/
theorem stays_fate_iff (hless : ∀ a, ∀ i ∈ M₁ a, i ∈ M₀ a) {made : Extension → Prop}
    {overdue : Prop} (hcarries : kind.Carries e) :
    (kind.fate store M₀ M₁ μ false made overdue).stays e ↔ (kind.ebb store M₀ M₁ μ).stays e := by
  cases kind with
  | present feed =>
    obtain rfl := hcarries
    show (∃ i ∈ _, i ∈ _) ↔ _ ∈ _
    rw [mem_extensions_present, and_iff_left rfl]
    exact ⟨fun ⟨i, _, hi⟩ => ⟨i, hi⟩, fun ⟨i, hi⟩ => ⟨i, Match.partners_mono hless hi, hi⟩⟩
  | accumulate feed fold having => exact or_iff_left Bool.false_ne_true
  | _ => exact Iff.rfl

/-- The same comes as when facts come and go. -/
theorem comes_fate_iff (hless : ∀ a, ∀ i ∈ M₁ a, i ∈ M₀ a) {made : Extension → Prop}
    {overdue : Prop} :
    (kind.fate store M₀ M₁ μ false made overdue).comes e ↔ (kind.ebb store M₀ M₁ μ).comes e := by
  cases kind with
  | present feed =>
    refine and_congr_right fun he => ?_
    obtain ⟨⟨i, hi⟩, rfl⟩ := mem_extensions_present.1 he
    rw [mem_extensions_present, and_iff_left rfl]
    exact iff_of_false (fun h => h i (Match.partners_mono hless hi) hi)
      (not_not_intro ⟨i, Match.partners_mono hless hi⟩)
  | accumulate feed fold having => exact and_congr_right fun _ => and_iff_right rfl
  | _ => exact Iff.rfl

end NodeKind

end

/-! ## Steps -/

/-- Facts leave memories, and results are made anew at once. -/
def Manner.ebb (store : WorkingMemory) (members members' : AlphaId → IdSet) : Manner where
  fate kind μ _ _ := kind.ebb store members members' μ
  comes kind μ e := e ∈ kind.extensions store members' μ
  overdue _ _ := False

section
variable {net : Network} {store store' store₀ store₁ : WorkingMemory}
  {M M₀ M₁ M₂ : AlphaId → IdSet} {x y : Ledger} {w : Manner} {m m' m'' : Matching} {n : NodeId}
  {left t : TokenId}

theorem NodeKind.not_overdue_ebb {kind : NodeKind} {μ : Match} :
    ¬ (kind.ebb store M₀ M₁ μ).overdue := by
  cases kind <;> exact id

/-- A step that takes facts out of memories, where no update goes on. -/
theorem Treats.ebb (T : Treats net store (.turn store m.members m'.members m.deferred.isSome) m m')
    (S : Sound net store x m) (hd : m.deferred = none) (hd' : m'.deferred = none)
    (hless : ∀ a, ∀ i ∈ m'.members a, i ∈ m.members a) :
    Treats net store (.ebb store m.members m'.members) m m' where
  forest := T.forest
  forest' := T.forest'
  survive := T.survive
  stays {n node left} hn hlt hl := by
    have h := T.stays hn hlt hl
    rw [hd] at h
    refine ⟨fun {t e} hmade => (h.old hmade).trans ?_, h.new.trans ?_, ?_⟩
    · exact NodeKind.stays_fate_iff hless (S.carries hmade (Network.kind?_eq hn))
    · exact NodeKind.comes_fate_iff hless
    · exact iff_of_false (Matching.not_overdue (by rw [hd']; rfl)) NodeKind.not_overdue_ebb
  comes {n node left} hn hle hl := by
    obtain ⟨hmade, -⟩ := T.comes hn hle hl
    rw [hd] at hmade
    refine ⟨fun e => (hmade e).trans (and_iff_right fun h => nomatch h.2), ?_⟩
    exact iff_of_false (Matching.not_overdue (by rw [hd']; rfl)) id

/-- It does not matter which facts there are beside those of the memories. -/
theorem Treats.restock (T : Treats net store (.ebb store m.members m'.members) m m')
    (S : Sound net store₀ x m) (hx : x.Still) (S' : Sound net store₁ y m') (hy : y.Still)
    (hd' : m'.deferred = none) (hless : ∀ a, ∀ i ∈ m'.members a, i ∈ m.members a)
    (hsame : ∀ a, ∀ i ∈ m.members a, store'.entry? i = store.entry? i) :
    Treats net store' (.ebb store' m.members m'.members) m m' := by
  have hover : ∀ n left, ¬ m'.Overdue net store' n left := fun n left =>
    Matching.not_overdue (by rw [hd']; rfl)
  refine ⟨T.forest, T.forest', T.survive, fun {n node left} hn hlt hl => ?_,
    fun {n node left} hn hle hl => ?_⟩
  · obtain ⟨o, ho, -⟩ := (T.earlier hlt hl).1
    have hμ : ∀ i ∈ (m.matchOf left).handles, store'.entry? i = store.entry? i := fun i hi => by
      obtain ⟨a, ha⟩ := S.mem_handles hx.idle hx.told ho i hi
      exact hsame a i ha
    have h := T.stays hn hlt hl
    have hfate := NodeKind.ebb_restock hμ hsame hless node.kind
    refine ⟨fun {t e} hmade => (h.old hmade).trans ?_, fun {e} => h.new.trans ?_, ?_⟩
    · exact (congrArg (fun f : Fate => f.stays e) hfate).symm ▸ Iff.rfl
    · exact (congrArg (fun f : Fate => f.comes e) hfate).symm ▸ Iff.rfl
    · exact iff_of_false (hover n left) NodeKind.not_overdue_ebb
  · have hμ : ∀ i ∈ (m'.matchOf left).handles, store'.entry? i = store.entry? i := fun i hi => by
      obtain ⟨o, ho, -⟩ := hl
      obtain ⟨a, ha⟩ := S'.mem_handles hy.idle hy.told ho i hi
      exact hsame a i (hless a i ha)
    obtain ⟨hmade, -⟩ := T.comes hn hle hl
    have hdue := NodeKind.extensions_restock hμ (fun a i hi => hsame a i (hless a i hi)) node.kind
    refine ⟨fun e => (hmade e).trans ?_, iff_of_false (hover n left) id⟩
    show e ∈ _ ↔ e ∈ _
    rw [hdue]

/-- What nodes have made that fold nothing is what they add. -/
def Matching.Due (net : Network) (store : WorkingMemory) (m : Matching) : Prop :=
  ∀ {n node left t e}, net.node? n = some node → m.LiveAt left node.parent →
    node.kind.folds = false → m.Made n left t e →
    e ∈ node.kind.extensions store m.members (m.matchOf left)

theorem Sound.due (S : Sound net store x m) (hx : x.Still) : m.Due net store :=
  fun {n _ left t e} hn hl hfolds hmade =>
    ((S.settled hn hl (hx.idle n left)).made_iff (hx.told n)
      (fun hmade => S.carries hmade (Network.kind?_eq hn)) hfolds e).1 ⟨t, hmade⟩

/-- What a left token has made in the end it had made before, and that has stayed, or it is new. -/
theorem Treats.made_cases (T : Treats net store w m m') {f : Fate} {e : Extension}
    (h : m.Meets net store m' n left f) (hmade : m'.Made n left t e) :
    (m.Made n left t e ∧ f.stays e) ∨ m.nextToken ≤ t := by
  by_cases hlt : t < m.nextToken
  · obtain ⟨depth, ho⟩ := hmade
    have hold : m.Made n left t e := ⟨depth, T.survive hlt ho⟩
    exact .inl ⟨hold, (h.old hold).1 ⟨depth, ho⟩⟩
  · exact .inr (Nat.not_lt.1 hlt)

/-- Two steps that take facts out of memories are one. -/
theorem Treats.ebb_trans (T : Treats net store (.ebb store m.members m'.members) m m')
    (T' : Treats net store (.ebb store m'.members m''.members) m' m'')
    (hnext : m.nextToken ≤ m'.nextToken) (hdue : m.Due net store)
    (h₁ : ∀ a, ∀ i ∈ m'.members a, i ∈ m.members a)
    (h₂ : ∀ a, ∀ i ∈ m''.members a, i ∈ m'.members a) :
    Treats net store (.ebb store m.members m''.members) m m'' where
  forest := T.forest
  forest' := T'.forest'
  survive hlt ho := T.survive hlt (T'.survive (Nat.lt_of_lt_of_le hlt hnext) ho)
  stays {n node left} hn hlt hl := by
    have hlt' := Nat.lt_of_lt_of_le hlt hnext
    obtain ⟨hmid, -⟩ := T'.earlier hlt' hl
    obtain ⟨hold, hmatch⟩ := T.earlier hlt hmid
    have h := T.stays hn hlt hmid
    have h' := T'.stays hn hlt' hl
    rw [hmatch] at h'
    change m.Meets net store m' n left (node.kind.ebb store _ _ _) at h
    change m'.Meets net store m'' n left (node.kind.ebb store _ _ _) at h'
    show m.Meets net store m'' n left (node.kind.ebb store _ _ _)
    refine ⟨fun {t e} hmade => ?_, fun {e} => ?_, ?_⟩
    · rw [NodeKind.ebb_stays_trans h₁ h₂ fun hfolds => hdue hn hold hfolds hmade, ← h.old hmade]
      have hbefore := Nat.lt_of_lt_of_le (hmade.lt T.forest) hnext
      exact ⟨fun h'' => (T'.made_cases h' h'').resolve_right (Nat.not_le.2 hbefore),
        fun h'' => (h'.old h''.1).2 h''.2⟩
    · rw [NodeKind.ebb_comes_trans h₁ h₂, ← h.new, ← h'.new]
      constructor
      · rintro ⟨t, hle, hmade⟩
        rcases T'.made_cases h' hmade with ⟨hmade', hstays⟩ | hnew
        · exact .inr ⟨⟨t, hle, hmade'⟩, hstays⟩
        · exact .inl ⟨t, hnew, hmade⟩
      · rintro (⟨t, hle, hmade⟩ | ⟨⟨t, hle, hmade⟩, hstays⟩)
        · exact ⟨t, Nat.le_trans hnext hle, hmade⟩
        · exact ⟨t, hle, (h'.old hmade).2 hstays⟩
    · exact h'.overdue.trans (iff_of_false NodeKind.not_overdue_ebb NodeKind.not_overdue_ebb)
  comes {n node left} hn hle hl := by
    by_cases hlt : left < m'.nextToken
    · -- the left token came with the first step
      obtain ⟨hmid, hmatch⟩ := T'.earlier hlt hl
      obtain ⟨hmade, -⟩ := T.comes hn hle hmid
      have h' := T'.stays hn hlt hl
      change m'.Meets net store m'' n left (node.kind.ebb store _ _ _) at h'
      change ∀ e, _ ↔ e ∈ node.kind.extensions store m'.members (m'.matchOf left) at hmade
      refine ⟨fun e => ?_, h'.overdue.trans (iff_of_false NodeKind.not_overdue_ebb id)⟩
      show _ ↔ e ∈ _
      rw [hmatch, @NodeKind.mem_extensions_ebb store m'.members, ← h'.new, ← hmade]
      constructor
      · rintro ⟨t, hmade⟩
        rcases T'.made_cases h' hmade with ⟨hmade', hstays⟩ | hnew
        · exact .inl ⟨⟨t, hmade'⟩, hstays⟩
        · exact .inr ⟨t, hnew, hmade⟩
      · rintro (⟨⟨t, hmade⟩, hstays⟩ | ⟨t, -, hmade⟩)
        · exact ⟨t, (h'.old hmade).2 hstays⟩
        · exact ⟨t, hmade⟩
    · exact T'.comes hn (Nat.not_lt.1 hlt) hl

/-- Where nothing leaves, nothing is made. -/
theorem Treats.ebb_refl (F : m.Forest net) (hdue : m.Due net store) (hd : m.deferred = none) :
    Treats net store (.ebb store m.members m.members) m m where
  forest := F
  forest' := F
  survive _ h := h
  stays {n node left} hn _ hl := by
    have hstays : ∀ {t e}, m.Made n left t e →
        (node.kind.ebb store m.members m.members (m.matchOf left)).stays e := fun {t e} hmade => by
      cases hfolds : node.kind.folds with
      | false =>
        rw [NodeKind.ebb_of_not_folds hfolds]
        exact hdue hn hl hfolds hmade
      | true =>
        cases hk : node.kind with
        | accumulate feed fold having => exact rfl
        | _ => rw [hk] at hfolds; cases hfolds
    have hcomes : ∀ e, ¬ (node.kind.ebb store m.members m.members (m.matchOf left)).comes e :=
      fun e => by
        cases node.kind with
        | accumulate feed fold having => exact fun h => h.1 rfl
        | _ => exact fun h => h.2 h.1
    exact .of_kept F Iff.rfl hstays hcomes
      (iff_of_false (Matching.not_overdue (by rw [hd]; rfl)) NodeKind.not_overdue_ebb)
  comes {n node left} hn hle hl := by
    obtain ⟨o, ho, -⟩ := hl
    exact absurd (F.lt_next ho) (Nat.not_lt.2 hle)

/-! ## Two runs -/

/-- After two steps that treat left tokens in one manner, every live token of the one has a live token
    of the other at the same node that has the same match. An old token is the same one, and a new one
    has a new one. -/
theorem Treats.alike (T : Treats net store w m m') (T' : Treats net store w m m'') {o : Origin}
    (ho : m'.origin? t = some o) : ∃ t', m''.LiveAt t' o.node ∧ m''.matchOf t' = m'.matchOf t ∧
      ((t < m.nextToken ∧ t' = t) ∨ (m.nextToken ≤ t ∧ m.nextToken ≤ t')) := by
  have F := T.forest'
  have F' := T'.forest'
  refine F.induction (P := fun t o => ∃ t', m''.LiveAt t' o.node ∧
    m''.matchOf t' = m'.matchOf t ∧
      ((t < m.nextToken ∧ t' = t) ∨ (m.nextToken ≤ t ∧ m.nextToken ≤ t'))) ?_ ?_ t o ho
  · refine ⟨rootToken, F'.live_root, ?_, .inl ⟨T.forest.lt_next T.forest.root, rfl⟩⟩
    rw [Matching.matchOf_root F, Matching.matchOf_root F']
  · intro t p n node o above ho hp hnode hn hlt habove heq hdepth ⟨p', hl', hmatch, hage⟩
    have hmade := Matching.made_of_origin ho hnode hp
    have hl : m'.LiveAt p node.parent := ⟨above, habove, heq⟩
    rw [heq] at hl'
    have hfound : ∀ {t'}, m''.Made n p' t' o.step →
        m''.LiveAt t' o.node ∧ m''.matchOf t' = m'.matchOf t := fun hmade' => by
      refine ⟨hnode ▸ hmade'.live, ?_⟩
      rw [hmade'.matchOf F', hmade.matchOf F, hmatch]
    rcases hage with ⟨hold, rfl⟩ | ⟨hle, hle'⟩
    · have h := T.stays hn hold hl
      have h' := T'.stays hn hold hl'
      by_cases hlt' : t < m.nextToken
      · obtain ⟨depth, hot⟩ := hmade
        have hbefore : m.Made n p' t o.step := ⟨depth, T.survive hlt' hot⟩
        have hmade' := (h'.old hbefore).2 ((h.old hbefore).1 ⟨depth, hot⟩)
        obtain ⟨hlive, hsame⟩ := hfound hmade'
        exact ⟨t, hlive, hsame, .inl ⟨hlt', rfl⟩⟩
      · obtain ⟨t', hle', hmade'⟩ := h'.new.2 (h.new.1 ⟨t, Nat.not_lt.1 hlt', hmade⟩)
        obtain ⟨hlive, hsame⟩ := hfound hmade'
        exact ⟨t', hlive, hsame, .inr ⟨Nat.not_lt.1 hlt', hle'⟩⟩
    · obtain ⟨hcomes, -⟩ := T.comes hn hle hl
      obtain ⟨hcomes', -⟩ := T'.comes hn hle' hl'
      rw [hmatch] at hcomes'
      obtain ⟨t', hmade'⟩ := (hcomes' _).2 ((hcomes _).1 ⟨t, hmade⟩)
      obtain ⟨hlive, hsame⟩ := hfound hmade'
      exact ⟨t', hlive, hsame, .inr ⟨Nat.le_trans hle (Nat.le_of_lt hlt),
        Nat.le_trans hle' (Nat.le_of_lt (hmade'.leftOf F').1)⟩⟩

end

end RuleNet
