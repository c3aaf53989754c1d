/-
  What alpha memories hold.

  * `Stocked`: members are live facts of the memory's type, and a look-up by a field finds exactly
    the members whose field has the key.
  * `Stocked.enter`, `Stocked.leave`: facts that come and go keep this.
  * `Stocked.mem_partners`: the facts that a node finds for a left token are those of its memory
    that go with the left token's match.

  A key is looked up in place of a test `field == value` in three places: facts are dispatched to
  memories by a literal, facts are found for a match or a row, and matches are found for a fact. A
  look-up never finds what the test would refuse. It misses what the test would accept only where an
  integer is rounded to be compared with a double.

  * `Dispatch.choose?_key`, `Stocked.mem_lookUp`, `NodeMemory.Filed.mem_leftIndex`: the three
    look-ups.
  * `Value.keys_of_looseEq`: all of them at once.
-/
import RuleNet.Network.Build
import RuleNet.Proofs.Matching.Sound
import RuleNet.Proofs.Value.Equality

namespace RuleNet

namespace Matching

/-- The members of a memory by the key of a field. -/
def buckets (m : Matching) (a : AlphaId) (field : String) : Buckets Value :=
  ((m.alpha a).index.find? field).getD []

theorem lookUp_eq (m : Matching) (a : AlphaId) (field : String) (v : Value) :
    m.lookUp a field v = (m.buckets a field).get v.indexKey := by
  unfold lookUp buckets
  cases (m.alpha a).index.find? field with
  | none => rfl
  | some buckets => rfl

theorem alpha_setAlpha (m : Matching) (a b : AlphaId) (memory : AlphaMemory) :
    (m.setAlpha a memory).alpha b = if a = b then memory else m.alpha b := by
  simp only [alpha, setAlpha, Std.ExtTreeMap.getElem?_insert, Nat.compare_eq_eq]
  split <;> rfl

end Matching

/-- Alpha memories hold live facts of their type, and can be looked up by their fields. -/
structure Stocked (net : Network) (store : WorkingMemory) (m : Matching) : Prop where
  typed : ∀ {a h}, h ∈ m.members a → ∃ alpha entry,
    net.alpha? a = some alpha ∧ store.entry? h = some entry ∧ entry.fact.type = alpha.type
  found : ∀ {a alpha field h key}, net.alpha? a = some alpha → field ∈ alpha.indexedFields →
    (h ∈ (m.buckets a field).get key ↔
      h ∈ m.members a ∧ ((store.valueOf h field).indexKey == key) = true)
  separate : ∀ a field, (m.buckets a field).Separate

namespace Stocked

variable {net : Network} {store : WorkingMemory} {m m' : Matching}

theorem congr (h : Stocked net store m) (hmembers : m'.members = m.members)
    (hbuckets : m'.buckets = m.buckets) : Stocked net store m' where
  typed := by rw [hmembers]; exact h.typed
  found := by rw [hmembers, hbuckets]; exact h.found
  separate := by rw [hbuckets]; exact h.separate

theorem of_alphas (h : Stocked net store m) (halphas : m'.alphas = m.alphas) :
    Stocked net store m' := by
  have halpha : m'.alpha = m.alpha := funext fun a => by
    rw [Matching.alpha, Matching.alpha, halphas]
  refine h.congr (funext fun a => ?_) (funext fun a => funext fun field => ?_)
  · rw [Matching.members, Matching.members, halpha]
  · rw [Matching.buckets, Matching.buckets, halpha]

/-! ## Coming -/

/-- The index of a memory after one more member has been filed by some fields. -/
theorem mem_fileFields {fields : List String} {index : Entries (Buckets Value)} {fact : Fact}
    {h i : Handle} {field : String} {key : Value} :
    i ∈ (((fields.foldl (fun (index : Entries (Buckets Value)) field =>
      index.insert field (((index.find? field).getD []).file (fact.value field).indexKey h))
      index).find? field).getD []).get key ↔
    (field ∈ fields ∧ ((fact.value field).indexKey == key) = true ∧ h = i) ∨
      i ∈ ((index.find? field).getD []).get key := by
  induction fields generalizing index with
  | nil => simp
  | cons f rest ih =>
    rw [List.foldl_cons, ih, Entries.find?_insert, List.mem_cons]
    by_cases hf : f = field
    · subst hf
      rw [if_pos rfl, Option.getD_some, Buckets.mem_get_file]
      constructor
      · rintro (⟨-, hk, hi⟩ | ⟨hk, hi⟩ | hold)
        · exact Or.inl ⟨Or.inl rfl, hk, hi⟩
        · exact Or.inl ⟨Or.inl rfl, hk, hi⟩
        · exact Or.inr hold
      · rintro (⟨-, hk, hi⟩ | hold)
        · exact Or.inr (Or.inl ⟨hk, hi⟩)
        · exact Or.inr (Or.inr hold)
    · have hne : field ≠ f := fun e => hf e.symm
      simp [hf, hne]

theorem separate_fileFields {fields : List String} {index : Entries (Buckets Value)} {fact : Fact}
    {h : Handle} (hs : ∀ field, Buckets.Separate ((index.find? field).getD [])) (field : String) :
    Buckets.Separate (((fields.foldl (fun (index : Entries (Buckets Value)) field =>
      index.insert field (((index.find? field).getD []).file (fact.value field).indexKey h))
      index).find? field).getD []) := by
  induction fields generalizing index with
  | nil => exact hs field
  | cons f rest ih =>
    rw [List.foldl_cons]
    refine ih fun g => ?_
    rw [Entries.find?_insert]
    split
    · exact Buckets.separate_file (hs f)
    · exact hs g

theorem members_enter (m : Matching) (a b : AlphaId) (fields : List String) (h : Handle)
    (fact : Fact) (position : Int) {i : Handle} :
    i ∈ (m.enter a fields h fact position).members b ↔ (a = b ∧ h = i) ∨ i ∈ m.members b := by
  rw [Matching.members, Matching.enter, Matching.alpha_setAlpha]
  split
  · next hab =>
    subst hab
    rw [Std.ExtTreeSet.mem_insert, Nat.compare_eq_eq]
    simp [Matching.members]
  · next hab => simp [hab, Matching.members]

theorem buckets_enter (m : Matching) (a b : AlphaId) (fields : List String) (h : Handle)
    (fact : Fact) (position : Int) (field : String) :
    (m.enter a fields h fact position).buckets b field =
      if a = b then ((fields.foldl (fun (index : Entries (Buckets Value)) field =>
        index.insert field (((index.find? field).getD []).file (fact.value field).indexKey h))
        (m.alpha a).index).find? field).getD []
      else m.buckets b field := by
  rw [Matching.buckets, Matching.enter, Matching.alpha_setAlpha]
  split
  · rfl
  · rfl

/-- A live fact of the memory's type enters. -/
theorem enter (S : Stocked net store m) {a : AlphaId} {alpha : AlphaNode} {h : Handle}
    {entry : Entry} (ha : net.alpha? a = some alpha) (he : store.entry? h = some entry)
    (ht : entry.fact.type = alpha.type) (position : Int) :
    Stocked net store (m.enter a alpha.indexedFields h entry.fact position) where
  typed {b i} hi := by
    rcases (members_enter ..).1 hi with ⟨rfl, rfl⟩ | hi
    · exact ⟨alpha, entry, ha, he, ht⟩
    · exact S.typed hi
  found {b beta field i key} hb hfield := by
    have hvalue : store.valueOf h field = entry.fact.value field := by
      rw [WorkingMemory.valueOf, WorkingMemory.fact?, he]
      rfl
    rw [members_enter, buckets_enter]
    split
    · next hab =>
      subst hab
      obtain rfl := Option.some.inj (ha.symm.trans hb)
      rw [mem_fileFields]
      have hold : i ∈ (m.buckets a field).get key ↔
          i ∈ m.members a ∧ ((store.valueOf i field).indexKey == key) = true := S.found ha hfield
      rw [Matching.buckets] at hold
      rw [hold]
      constructor
      · rintro (⟨-, hk, rfl⟩ | ⟨hi, hk⟩)
        · exact ⟨Or.inl ⟨rfl, rfl⟩, hvalue ▸ hk⟩
        · exact ⟨Or.inr hi, hk⟩
      · rintro ⟨⟨-, rfl⟩ | hi, hk⟩
        · exact Or.inl ⟨hfield, hvalue ▸ hk, rfl⟩
        · exact Or.inr ⟨hi, hk⟩
    · next hab =>
      rw [S.found hb hfield]
      simp [hab]
  separate b field := by
    rw [buckets_enter]
    split
    · exact separate_fileFields (fun field => S.separate a field) field
    · exact S.separate b field

/-! ## Going -/

theorem members_leave (m : Matching) (a b : AlphaId) (h : Handle) (fact : Fact) {i : Handle} :
    i ∈ (m.leave a h fact).members b ↔ i ∈ m.members b ∧ ¬ (a = b ∧ h = i) := by
  rw [Matching.leave]
  split
  · rw [Matching.members, Matching.alpha_setAlpha]
    split
    · next hab =>
      subst hab
      rw [Std.ExtTreeSet.mem_erase, Ne, Nat.compare_eq_eq]
      simp [Matching.members, and_comm]
    · next hab => simp [hab, Matching.members]
  · next hno =>
    constructor
    · intro hi
      refine ⟨hi, ?_⟩
      rintro ⟨rfl, rfl⟩
      exact hno (Std.ExtTreeSet.contains_iff_mem.2 hi)
    · exact fun hi => hi.1

theorem buckets_leave (m : Matching) (a b : AlphaId) (h : Handle) (fact : Fact) (field : String)
    (hm : h ∈ m.members a) :
    (m.leave a h fact).buckets b field =
      if a = b then (m.buckets b field).unfile (fact.value field).indexKey h
      else m.buckets b field := by
  have hc : (m.alpha a).facts.contains h = true := Std.ExtTreeSet.contains_iff_mem.2 hm
  simp only [Matching.buckets, Matching.leave, hc, if_true]
  rw [Matching.alpha_setAlpha]
  split
  · next hab =>
    subst hab
    rw [Entries.find?_map fun field buckets => Buckets.unfile (fact.value field).indexKey h buckets]
    cases (m.alpha a).index.find? field with
    | none => rfl
    | some buckets => rfl
  · rfl

/-- A fact leaves with the value that it has in the store. -/
theorem leave (S : Stocked net store m) (a : AlphaId) {h : Handle} {fact : Fact}
    (hf : store.fact? h = some fact) : Stocked net store (m.leave a h fact) := by
  by_cases hm : h ∈ m.members a
  · constructor
    · intro b i hi
      exact S.typed ((members_leave ..).1 hi).1
    · intro b beta field i key hb hfield
      have hvalue : store.valueOf h field = fact.value field := by
        rw [WorkingMemory.valueOf, hf]
      rw [members_leave, buckets_leave m a b h fact field hm]
      split
      · next hab =>
        subst hab
        rw [Buckets.mem_get_unfile (S.separate a field), S.found hb hfield]
        constructor
        · rintro ⟨⟨hi, hk⟩, hno⟩
          refine ⟨⟨hi, ?_⟩, hk⟩
          rintro ⟨-, rfl⟩
          exact hno ⟨hvalue ▸ hk, rfl⟩
        · rintro ⟨⟨hi, hno⟩, hk⟩
          exact ⟨⟨hi, hk⟩, fun hki => hno ⟨rfl, hki.2⟩⟩
      · next hab =>
        rw [S.found hb hfield]
        simp [hab]
    · intro b field
      rw [buckets_leave m a b h fact field hm]
      split
      · exact Buckets.separate_unfile (S.separate b field)
      · exact S.separate b field
  · have hsame : m.leave a h fact = m := by
      have hc : ¬ (m.alpha a).facts.contains h = true := fun hc =>
        hm (Std.ExtTreeSet.contains_iff_mem.1 hc)
      rw [Matching.leave]
      exact if_neg hc
    rw [hsame]
    exact S

/-! ## Partners -/

theorem nodup_partners (m : Matching) (feed : Feed) (left : TokenId) :
    (m.partners store feed left).Nodup := by
  refine List.Pairwise.filter _ ?_
  unfold Matching.feedMembers
  split
  · exact IdSet.nodup_toList _
  · exact IdSet.nodup_toList _

/-- The facts that a node finds for a left token. -/
theorem mem_partners (S : Stocked net store m) (W : net.WellFormed) (F : m.Forest net)
    {n : NodeId} {kind : NodeKind} {feed : Feed} (hk : net.kind? n = some kind)
    (hf : kind.feed? = some feed) {left : TokenId} {o : Origin}
    (ho : m.origin? left = some o) {h : Handle} :
    h ∈ m.partners store feed left ↔
      h ∈ m.members feed.alpha ∧ (m.matchOf left).accepts store feed h = true := by
  have hview := Matching.view_eq W F ho store
  obtain ⟨alpha, halpha, hindex⟩ := W.feed hk hf
  rw [Matching.partners, List.mem_filter, Matching.passes, Match.accepts, hview, Bool.and_eq_true,
    Matching.feedMembers]
  cases hi : feed.index with
  | none =>
    exact and_congr Std.ExtTreeSet.mem_toList (and_iff_left rfl).symm
  | some index =>
    simp only [Std.ExtTreeSet.mem_toList, Matching.lookUp_eq]
    rw [S.found halpha (hindex index hi), hview, and_assoc]
    exact and_congr_right fun _ => and_comm

end Stocked

/-! ## Look-ups -/

namespace Value

/-- The keys of a value and of an operand are equal if the operator `==` accepts them and no integer
    in them is rounded. -/
theorem indexKey_beq_comm (v w : Value) :
    (w.indexKey == v.indexKey) = (Operator.equal.apply v w && !v.blurs w) := by
  rw [show (w.indexKey == v.indexKey) = (v.indexKey == w.indexKey) from equal_comm _ _, indexKey_beq]
  rfl

end Value

/-- A fact is dispatched to a memory by the key of a literal among the memory's tests. -/
theorem Dispatch.choose?_key {tests : List (Test Place)} {dispatch : Dispatch}
    (h : Dispatch.choose? tests = some dispatch) : ∃ literal,
      .compare dispatch.field .equal (.literal literal) ∈ tests ∧ dispatch.key = literal.indexKey := by
  obtain ⟨⟨field, literal⟩, hhead, rfl⟩ := Option.map_eq_some_iff.1 h
  have hmem := (List.mergeSort_perm _ _).mem_iff.1 (List.mem_of_head? hhead)
  obtain ⟨test, htest, heq⟩ := List.mem_filterMap.1 hmem
  refine ⟨literal, ?_, rfl⟩
  unfold Test.equalityLiteral? at heq
  split at heq
  · cases heq
    exact htest
  · cases heq

/-- The members found by a field of a value. -/
theorem Stocked.mem_lookUp {net : Network} {store : WorkingMemory} {m : Matching}
    (S : Stocked net store m) {a : AlphaId} {alpha : AlphaNode} (ha : net.alpha? a = some alpha)
    {field : String} (hf : field ∈ alpha.indexedFields) {h : Handle} {v : Value} :
    h ∈ m.lookUp a field v ↔ h ∈ m.members a ∧
      (Operator.equal.apply (store.valueOf h field) v && !(store.valueOf h field).blurs v) = true := by
  rw [Matching.lookUp_eq, S.found ha hf, Value.indexKey_beq]
  rfl

/-- The left tokens found under the key of a fact's value. -/
theorem NodeMemory.Filed.mem_leftIndex {memory : NodeMemory} {unlisted : Handle → Prop}
    (F : memory.Filed unlisted) {left : TokenId} {operand : Value}
    (hk : memory.leftKeys[left]? = some operand.indexKey) {v : Value} :
    left ∈ memory.leftIndex.get v.indexKey ↔
      (Operator.equal.apply v operand && !v.blurs operand) = true := by
  rw [F.keyed, ← Value.indexKey_beq_comm, hk]
  constructor
  · rintro ⟨k, hk, h⟩
    cases hk
    exact h
  · intro h
    exact ⟨_, rfl, h⟩

/-- Keys are equal exactly where values are loosely equal and no integer in them is rounded. So it
    is with the dispatch of facts to memories, the facts found by a field, and the left tokens found
    for a fact. -/
theorem Value.keys_of_looseEq (v w : Value) :
    (v.indexKey == w.indexKey) = (v.looseEq w && !v.blurs w) ∧
    (∀ (tests : List (Test Place)) (dispatch : Dispatch), Dispatch.choose? tests = some dispatch →
      ∃ literal, .compare dispatch.field .equal (.literal literal) ∈ tests ∧
        (dispatch.key == v.indexKey) = (Operator.equal.apply v literal && !v.blurs literal)) ∧
    (∀ (net : Network) (store : WorkingMemory) (m : Matching), Stocked net store m →
      ∀ (a : AlphaId) (alpha : AlphaNode), net.alpha? a = some alpha →
      ∀ field ∈ alpha.indexedFields, ∀ h, h ∈ m.lookUp a field w ↔ h ∈ m.members a ∧
        (Operator.equal.apply (store.valueOf h field) w &&
          !(store.valueOf h field).blurs w) = true) ∧
    (∀ (memory : NodeMemory) (unlisted : Handle → Prop), memory.Filed unlisted →
      ∀ left : TokenId, memory.leftKeys[left]? = some w.indexKey →
      (left ∈ memory.leftIndex.get v.indexKey ↔
        (Operator.equal.apply v w && !v.blurs w) = true)) := by
  refine ⟨indexKey_beq v w, ?_, ?_, ?_⟩
  · intro tests dispatch h
    obtain ⟨literal, hmem, hkey⟩ := Dispatch.choose?_key h
    refine ⟨literal, hmem, ?_⟩
    rw [hkey, indexKey_beq_comm]
  · intro net store m S a alpha ha field hf h
    exact S.mem_lookUp ha hf
  · intro memory unlisted F left hk
    exact F.mem_leftIndex hk

/-- The first odd integer that no double is equal to, and the double that it is rounded to. -/
theorem Value.looseEq_without_key :
    (integer 9007199254740993).looseEq (double ⟨0x4340000000000000⟩) = true ∧
      ((integer 9007199254740993).indexKey == (double ⟨0x4340000000000000⟩).indexKey) = false := by
  decide +kernel

end RuleNet
