/-
  What a look-up finds after ids have been filed or taken away.

  * `Index.mem_get_file`, `Index.mem_get_unfile`: sets of ids under ids.
  * `Buckets.mem_get_file`, `Buckets.mem_get_unfile`: sets of ids under keys, whose equality need
    only be symmetric and transitive. Taking away asks for buckets of which no two have equal keys,
    which filing and taking away keep.
  * `mem_append_if`, `nodup_append_if`: lists that get one more item at the end, if there is cause.
-/
import RuleNet.Data.Entries
import RuleNet.Data.Keyed

namespace RuleNet

/-! ## Sets of ids -/

namespace IdSet

theorem mem_insertAll (ids : List Nat) (set : IdSet) (i : Nat) :
    i ∈ ids.foldl (fun set j => set.insert j) set ↔ i ∈ set ∨ i ∈ ids := by
  induction ids generalizing set with
  | nil => simp
  | cons j rest ih =>
    rw [List.foldl_cons, ih, Std.ExtTreeSet.mem_insert, Nat.compare_eq_eq, List.mem_cons]
    constructor
    · rintro ((rfl | h) | h)
      · exact Or.inr (Or.inl rfl)
      · exact Or.inl h
      · exact Or.inr (Or.inr h)
    · rintro (h | rfl | h)
      · exact Or.inl (Or.inr h)
      · exact Or.inl (Or.inl rfl)
      · exact Or.inr h

theorem isEmpty_iff_forall {set : IdSet} : set.isEmpty = true ↔ ∀ i, i ∉ set := by
  rw [Std.ExtTreeSet.isEmpty_iff]
  constructor
  · rintro rfl i
    exact Std.ExtTreeSet.not_mem_empty
  · intro h
    refine Std.ExtTreeSet.ext_mem fun i => ?_
    exact ⟨fun hi => absurd hi (h i), fun hi => absurd hi Std.ExtTreeSet.not_mem_empty⟩

theorem isEmpty_insertAll (ids : List Nat) :
    (ids.foldl (fun set i => set.insert i) (∅ : IdSet)).isEmpty = ids.isEmpty := by
  rw [Bool.eq_iff_iff, isEmpty_iff_forall, List.isEmpty_iff, List.eq_nil_iff_forall_not_mem]
  refine forall_congr' fun i => not_congr ?_
  rw [mem_insertAll]
  exact or_iff_right Std.ExtTreeSet.not_mem_empty

theorem isEmpty_insert (set : IdSet) (i : Nat) : (set.insert i).isEmpty = false :=
  Bool.eq_false_iff.2 fun h => isEmpty_iff_forall.1 h i Std.ExtTreeSet.mem_insert_self

theorem mem_insert {set : IdSet} {i j : Nat} : j ∈ set.insert i ↔ j = i ∨ j ∈ set := by
  rw [Std.ExtTreeSet.mem_insert, Nat.compare_eq_eq, eq_comm]

theorem mem_erase {set : IdSet} {i j : Nat} : j ∈ set.erase i ↔ j ≠ i ∧ j ∈ set := by
  rw [Std.ExtTreeSet.mem_erase, Ne, Nat.compare_eq_eq, eq_comm]

/-- Taking an id away empties a set only if it was the last one. -/
theorem isEmpty_erase {set : IdSet} {i : Nat} (h : i ∉ set ∨ (set.erase i).isEmpty = false) :
    (set.erase i).isEmpty = set.isEmpty := by
  rcases h with h | h
  · congr 1
    refine Std.ExtTreeSet.ext_mem fun j => ?_
    rw [mem_erase]
    exact and_iff_right_of_imp fun hj e => h (e ▸ hj)
  · rw [h]
    refine (Bool.eq_false_iff.2 fun hempty => ?_).symm
    refine Bool.eq_false_iff.1 h (isEmpty_iff_forall.2 fun j hj => ?_)
    exact isEmpty_iff_forall.1 hempty j (mem_erase.1 hj).2

theorem nodup_toList (set : IdSet) : set.toList.Nodup :=
  set.distinct_toList.imp fun h e => h (Nat.compare_eq_eq.2 e)

end IdSet

/-! ## Sets of ids under ids -/

namespace Index

theorem get_insert (index : Index) (key other : Nat) (ids : IdSet) :
    Index.get (index.insert key ids) other = if key = other then ids else index.get other := by
  simp only [get, Std.ExtTreeMap.getElem?_insert, Nat.compare_eq_eq]
  split <;> rfl

theorem get_erase (index : Index) (key other : Nat) :
    Index.get (index.erase key) other = if key = other then ∅ else index.get other := by
  simp only [get, Std.ExtTreeMap.getElem?_erase, Nat.compare_eq_eq]
  split <;> rfl

theorem mem_get_file {index : Index} {key id other i : Nat} :
    i ∈ (index.file key id).get other ↔ (key = other ∧ id = i) ∨ i ∈ index.get other := by
  rw [file, get_insert]
  split
  · next h => subst h; simp
  · next h => simp [h]

theorem mem_get_file_of_ne {index : Index} {key id other i : Nat} (hne : i ≠ id) :
    i ∈ (index.file key id).get other ↔ i ∈ index.get other := by
  rw [mem_get_file, or_iff_right fun h => hne h.2.symm]

theorem mem_get_unfile {index : Index} {key id other i : Nat} :
    i ∈ (index.unfile key id).get other ↔ i ∈ index.get other ∧ ¬ (key = other ∧ id = i) := by
  have hrest : ∀ j, j ∈ (index.get key).erase id ↔ id ≠ j ∧ j ∈ index.get key := by simp
  simp only [unfile]
  split
  · next hempty =>
    rw [get_erase]
    split
    · next h =>
      subst h
      have hno := IdSet.isEmpty_iff_forall.1 hempty i
      rw [hrest] at hno
      simp only [Std.ExtTreeSet.not_mem_empty, true_and, false_iff]
      intro ⟨hi, hne⟩
      exact hno ⟨hne, hi⟩
    · next h => simp [h]
  · rw [get_insert]
    split
    · next h => subst h; rw [hrest, and_comm]; simp
    · next h => simp [h]

theorem mem_get_fileAll {index : Index} {keys : List Nat} {id other i : Nat} :
    i ∈ (keys.foldl (fun index key => index.file key id) index).get other ↔
      (other ∈ keys ∧ id = i) ∨ i ∈ index.get other := by
  induction keys generalizing index with
  | nil => simp
  | cons key rest ih =>
    rw [List.foldl_cons, ih, mem_get_file, List.mem_cons]
    constructor
    · rintro (⟨h, hid⟩ | ⟨rfl, hid⟩ | h)
      · exact Or.inl ⟨Or.inr h, hid⟩
      · exact Or.inl ⟨Or.inl rfl, hid⟩
      · exact Or.inr h
    · rintro (⟨rfl | h, hid⟩ | h)
      · exact Or.inr (Or.inl ⟨rfl, hid⟩)
      · exact Or.inl ⟨h, hid⟩
      · exact Or.inr (Or.inr h)

theorem mem_get_unfileAll {index : Index} {keys : List Nat} {id other i : Nat} :
    i ∈ (keys.foldl (fun index key => index.unfile key id) index).get other ↔
      i ∈ index.get other ∧ ¬ (other ∈ keys ∧ id = i) := by
  induction keys generalizing index with
  | nil => simp
  | cons key rest ih =>
    rw [List.foldl_cons, ih, mem_get_unfile, List.mem_cons]
    constructor
    · rintro ⟨⟨hi, hkey⟩, hrest⟩
      refine ⟨hi, ?_⟩
      rintro ⟨rfl | h, hid⟩
      · exact hkey ⟨rfl, hid⟩
      · exact hrest ⟨h, hid⟩
    · rintro ⟨hi, h⟩
      exact ⟨⟨hi, fun ⟨e, hid⟩ => h ⟨Or.inl e.symm, hid⟩⟩, fun ⟨hr, hid⟩ => h ⟨Or.inr hr, hid⟩⟩

end Index

/-! ## Sets of ids under keys -/

namespace Buckets

variable {κ : Type} [BEq κ]

/-- No two keys are equal. -/
def Separate (buckets : Buckets κ) : Prop := buckets.Pairwise fun a b => ¬ (a.1 == b.1) = true

theorem get_cons (k key : κ) (ids : IdSet) (rest : Buckets κ) :
    Buckets.get ((k, ids) :: rest) key = if k == key then ids else get rest key := by
  simp only [get, find?]
  split <;> rfl

theorem get_eq_empty {buckets : Buckets κ} {key : κ} (h : ∀ b ∈ buckets, ¬ (b.1 == key) = true) :
    buckets.get key = ∅ := by
  induction buckets with
  | nil => rfl
  | cons b rest ih =>
    obtain ⟨k, ids⟩ := b
    rw [get_cons, if_neg (h _ List.mem_cons_self)]
    exact ih fun b hb => h b (List.mem_cons_of_mem _ hb)

/-- The keys after filing are the old ones and perhaps the new one. -/
theorem mem_file {key : κ} {id : Nat} {b : κ × IdSet} {buckets : Buckets κ}
    (h : b ∈ file key id buckets) : b.1 = key ∨ ∃ c ∈ buckets, b.1 = c.1 := by
  induction buckets with
  | nil =>
    rw [file, List.mem_singleton] at h
    exact Or.inl (h ▸ rfl)
  | cons head rest ih =>
    obtain ⟨k, ids⟩ := head
    rw [file] at h
    split at h
    · rcases List.mem_cons.1 h with rfl | h
      · exact Or.inr ⟨_, List.mem_cons_self, rfl⟩
      · exact Or.inr ⟨b, List.mem_cons_of_mem _ h, rfl⟩
    · rcases List.mem_cons.1 h with rfl | h
      · exact Or.inr ⟨_, List.mem_cons_self, rfl⟩
      · rcases ih h with h | ⟨c, hc, he⟩
        · exact Or.inl h
        · exact Or.inr ⟨c, List.mem_cons_of_mem _ hc, he⟩

theorem mem_unfile {key : κ} {id : Nat} {b : κ × IdSet} {buckets : Buckets κ}
    (h : b ∈ unfile key id buckets) : ∃ c ∈ buckets, b.1 = c.1 := by
  induction buckets with
  | nil => cases h
  | cons head rest ih =>
    obtain ⟨k, ids⟩ := head
    rw [unfile] at h
    split at h
    · simp only at h
      split at h
      · exact ⟨b, List.mem_cons_of_mem _ h, rfl⟩
      · rcases List.mem_cons.1 h with rfl | h
        · exact ⟨_, List.mem_cons_self, rfl⟩
        · exact ⟨b, List.mem_cons_of_mem _ h, rfl⟩
    · rcases List.mem_cons.1 h with rfl | h
      · exact ⟨_, List.mem_cons_self, rfl⟩
      · obtain ⟨c, hc, he⟩ := ih h
        exact ⟨c, List.mem_cons_of_mem _ hc, he⟩

/-- What a look-up finds is in a bucket. -/
theorem mem_of_mem_get {key : κ} {i : Nat} {buckets : Buckets κ} (h : i ∈ buckets.get key) :
    ∃ b ∈ buckets, i ∈ b.2 := by
  induction buckets with
  | nil => exact absurd h Std.ExtTreeSet.not_mem_empty
  | cons head rest ih =>
    obtain ⟨k, ids⟩ := head
    rw [get_cons] at h
    split at h
    · exact ⟨_, List.mem_cons_self, h⟩
    · obtain ⟨b, hb, hi⟩ := ih h
      exact ⟨b, List.mem_cons_of_mem _ hb, hi⟩

/-- What is in a bucket after filing is the new id or was in one before. -/
theorem mem_of_mem_file {key : κ} {id i : Nat} {b : κ × IdSet} {buckets : Buckets κ}
    (h : b ∈ file key id buckets) (hi : i ∈ b.2) : i = id ∨ ∃ c ∈ buckets, i ∈ c.2 := by
  induction buckets with
  | nil =>
    rw [file, List.mem_singleton] at h
    subst h
    exact (IdSet.mem_insert.1 hi).imp_right fun h => absurd h Std.ExtTreeSet.not_mem_empty
  | cons head rest ih =>
    obtain ⟨k, ids⟩ := head
    rw [file] at h
    split at h
    · rcases List.mem_cons.1 h with rfl | h
      · exact (IdSet.mem_insert.1 hi).imp_right fun h => ⟨_, List.mem_cons_self, h⟩
      · exact .inr ⟨b, List.mem_cons_of_mem _ h, hi⟩
    · rcases List.mem_cons.1 h with rfl | h
      · exact .inr ⟨_, List.mem_cons_self, hi⟩
      · exact (ih h).imp_right fun ⟨c, hc, hi⟩ => ⟨c, List.mem_cons_of_mem _ hc, hi⟩

/-- What is in a bucket after taking away was in one before. -/
theorem mem_of_mem_unfile {key : κ} {id i : Nat} {b : κ × IdSet} {buckets : Buckets κ}
    (h : b ∈ unfile key id buckets) (hi : i ∈ b.2) : ∃ c ∈ buckets, i ∈ c.2 := by
  induction buckets with
  | nil => cases h
  | cons head rest ih =>
    obtain ⟨k, ids⟩ := head
    rw [unfile] at h
    split at h
    · simp only at h
      split at h
      · exact ⟨b, List.mem_cons_of_mem _ h, hi⟩
      · rcases List.mem_cons.1 h with rfl | h
        · exact ⟨_, List.mem_cons_self, (IdSet.mem_erase.1 hi).2⟩
        · exact ⟨b, List.mem_cons_of_mem _ h, hi⟩
    · rcases List.mem_cons.1 h with rfl | h
      · exact ⟨_, List.mem_cons_self, hi⟩
      · obtain ⟨c, hc, hi⟩ := ih h
        exact ⟨c, List.mem_cons_of_mem _ hc, hi⟩

theorem separate_nil : Separate ([] : Buckets κ) := List.Pairwise.nil

theorem separate_unfile {key : κ} {id : Nat} {buckets : Buckets κ} (h : buckets.Separate) :
    Separate (unfile key id buckets) := by
  induction buckets with
  | nil => exact h
  | cons head rest ih =>
    obtain ⟨k, ids⟩ := head
    obtain ⟨hk, hr⟩ := List.pairwise_cons.1 h
    rw [unfile]
    split
    · simp only
      split
      · exact hr
      · exact List.pairwise_cons.2 ⟨hk, hr⟩
    · refine List.pairwise_cons.2 ⟨fun b hb => ?_, ih hr⟩
      obtain ⟨c, hc, he⟩ := mem_unfile hb
      exact he ▸ hk c hc

theorem separate_file {key : κ} {id : Nat} {buckets : Buckets κ} (h : buckets.Separate) :
    Separate (file key id buckets) := by
  induction buckets with
  | nil => exact List.pairwise_singleton _ _
  | cons head rest ih =>
    obtain ⟨k, ids⟩ := head
    obtain ⟨hk, hr⟩ := List.pairwise_cons.1 h
    rw [file]
    split
    · exact List.pairwise_cons.2 ⟨hk, hr⟩
    · next hne =>
      refine List.pairwise_cons.2 ⟨fun b hb => ?_, ih hr⟩
      rcases mem_file hb with he | ⟨c, hc, he⟩
      · exact he ▸ hne
      · exact he ▸ hk c hc

variable [PartialEquivBEq κ]

theorem beq_congr_left {a b c : κ} (h : a == b) : (a == c) = (b == c) := by
  rw [Bool.eq_iff_iff]
  exact ⟨fun hac => PartialEquivBEq.trans (PartialEquivBEq.symm h) hac,
    fun hbc => PartialEquivBEq.trans h hbc⟩

theorem mem_get_file {key other : κ} {id i : Nat} {buckets : Buckets κ} :
    i ∈ (file key id buckets).get other ↔ (key == other ∧ id = i) ∨ i ∈ buckets.get other := by
  induction buckets with
  | nil =>
    rw [file, get_cons]
    split
    · next h => simp [h, get, find?]
    · next h => simp [h, get, find?]
  | cons head rest ih =>
    obtain ⟨k, ids⟩ := head
    rw [file]
    split
    · next hk =>
      rw [get_cons, get_cons, beq_congr_left hk]
      split
      · next h => simp [h]
      · next h => simp [h]
    · next hk =>
      rw [get_cons, get_cons]
      split
      · next h =>
        have hne : ¬ (key == other) = true := fun h' =>
          hk (PartialEquivBEq.trans h (PartialEquivBEq.symm h'))
        simp [hne]
      · exact ih

theorem mem_get_unfile {key other : κ} {id i : Nat} {buckets : Buckets κ} (hs : buckets.Separate) :
    i ∈ (unfile key id buckets).get other ↔ i ∈ buckets.get other ∧ ¬ (key == other ∧ id = i) := by
  induction buckets with
  | nil => simp [unfile, get, find?]
  | cons head rest ih =>
    obtain ⟨k, ids⟩ := head
    obtain ⟨hk, hr⟩ := List.pairwise_cons.1 hs
    rw [unfile]
    split
    · next hkey =>
      have hsame : (k == other) = (key == other) := beq_congr_left hkey
      simp only
      split
      · next hempty =>
        rw [get_cons]
        split
        · next h =>
          have hno : get rest other = ∅ := by
            refine get_eq_empty fun b hb hbo => hk b hb ?_
            exact PartialEquivBEq.trans h (PartialEquivBEq.symm hbo)
          have hall := IdSet.isEmpty_iff_forall.1 hempty i
          rw [hno, ← hsame]
          simp only [Std.ExtTreeSet.mem_erase, Nat.compare_eq_eq, Ne] at hall
          simp only [Std.ExtTreeSet.not_mem_empty, h, true_and, false_iff]
          exact fun ⟨hi, hne⟩ => hall ⟨hne, hi⟩
        · next h => rw [← hsame]; simp [h]
      · rw [get_cons, get_cons, ← hsame]
        split
        · next h => simp [h, and_comm]
        · next h => simp [h]
    · next hkey =>
      rw [get_cons, get_cons]
      split
      · next h =>
        have hne : ¬ (key == other) = true := fun h' =>
          hkey (PartialEquivBEq.trans h (PartialEquivBEq.symm h'))
        simp [hne]
      · exact ih hr

end Buckets

/-! ## Named values -/

namespace Entries

variable {α β : Type}

theorem find?_map (f : String → α → β) (name : String) (entries : Entries α) :
    find? name (entries.map fun e => (e.1, f e.1 e.2)) = (find? name entries).map (f name) := by
  induction entries with
  | nil => rfl
  | cons e rest ih =>
    obtain ⟨k, v⟩ := e
    rw [List.map_cons, find?, find?]
    split
    · next h => rw [h]; rfl
    · exact ih

end Entries

/-! ## One more at the end -/

section

variable {α : Type} {c : Prop} [Decidable c] {xs : List α} {x y : α}

theorem append_if : (if c then xs ++ [x] else xs) = xs ++ if c then [x] else [] := by
  split
  · rfl
  · exact (List.append_nil xs).symm

theorem mem_append_if : y ∈ (xs ++ if c then [x] else []) ↔ y ∈ xs ∨ (c ∧ y = x) := by
  rw [List.mem_append]
  refine or_congr_right ?_
  split
  · next h => rw [List.mem_singleton, and_iff_right h]
  · next h => exact iff_of_false List.not_mem_nil fun h' => h h'.1

theorem nodup_append_if (hxs : xs.Nodup) (hx : x ∉ xs) : (xs ++ if c then [x] else []).Nodup := by
  split
  · exact List.nodup_append.2 ⟨hxs, List.pairwise_singleton _ x,
      fun y hy z hz e => hx (List.mem_singleton.1 hz ▸ e ▸ hy)⟩
  · rwa [List.append_nil]

end

end RuleNet
