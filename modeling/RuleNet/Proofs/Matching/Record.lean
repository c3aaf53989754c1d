/-
  What a node holds for its left tokens, and the lists by which it finds them.

  * `LeftRecord`, `NodeMemory.about`: all that a node holds for one left token.
  * `NodeMemory.Filed`: left tokens are found by their keys, and by the facts that go with them.
-/
import RuleNet.Matching.Memory
import RuleNet.Proofs.Accumulator
import RuleNet.Proofs.Data.Filing
import RuleNet.Proofs.Value.Equality

namespace RuleNet

/-! ## Records -/

/-- What a node holds for a left token. -/
structure LeftRecord where
  arrived : Bool
  key : Option Value
  found : Option IdSet
  accumulator : Option Accumulator
  output : Option TokenId
  /-- Its result is to be looked at when the update ends. -/
  marked : Bool

namespace LeftRecord

def blank : LeftRecord := ⟨false, none, none, none, none, false⟩

/-- Whether a fact was found for the left token or folded into its result. -/
def Lists (r : LeftRecord) (h : Handle) : Prop :=
  (∃ facts, r.found = some facts ∧ h ∈ facts) ∨
    ∃ acc, r.accumulator = some acc ∧ acc.contains h = true

theorem lists_found {arrived key facts output marked} {h : Handle} :
    (LeftRecord.mk arrived key (some facts) none output marked).Lists h ↔ h ∈ facts := by
  simp [Lists]

theorem lists_accumulator {arrived key acc output marked} {h : Handle} :
    (LeftRecord.mk arrived key none (some acc) output marked).Lists h ↔ acc.contains h = true := by
  simp [Lists]

theorem not_lists {arrived key output marked} {h : Handle} :
    ¬ (LeftRecord.mk arrived key none none output marked).Lists h := by
  simp [Lists]

end LeftRecord

namespace NodeMemory

def about (memory : NodeMemory) (left : TokenId) (marked : Bool) : LeftRecord where
  arrived := memory.left.contains left
  key := memory.leftKeys[left]?
  found := memory.found[left]?
  accumulator := memory.accumulators[left]?
  output := memory.outputs[left]?
  marked := marked

/-! ## Finding left tokens -/

/-- The lists of a node memory say what its records say, but for facts that are not listed. -/
structure Filed (memory : NodeMemory) (unlisted : Handle → Prop) : Prop where
  listed : ∀ {left h}, left ∈ memory.foundBy.get h ↔
    ¬ unlisted h ∧ (memory.about left false).Lists h
  keyed : ∀ {left key}, left ∈ memory.leftIndex.get key ↔
    ∃ k, memory.leftKeys[left]? = some k ∧ (k == key) = true
  separate : memory.leftIndex.Separate

namespace Filed

variable {memory : NodeMemory} {unlisted : Handle → Prop} {left : TokenId}

theorem empty : NodeMemory.empty.Filed unlisted where
  listed {left h} := by
    constructor
    · exact fun hl => absurd hl Std.ExtTreeSet.not_mem_empty
    · exact fun hl => absurd hl.2 LeftRecord.not_lists
  keyed {left key} := by
    constructor
    · exact fun hl => absurd hl Std.ExtTreeSet.not_mem_empty
    · rintro ⟨k, hk, -⟩
      cases hk
  separate := Buckets.separate_nil

/-- The lists do not depend on which left tokens there are and what was passed on for them. -/
theorem congr (F : memory.Filed unlisted) (left : IdSet)
    (outputs : Std.ExtTreeMap TokenId TokenId) :
    { memory with left, outputs }.Filed unlisted :=
  ⟨F.listed, F.keyed, F.separate⟩

/-- A left token is filed under its key. -/
theorem fileKey (F : memory.Filed unlisted) (hnew : memory.leftKeys[left]? = none) (key : Value) :
    { memory with
      leftKeys := memory.leftKeys.insert left key
      leftIndex := memory.leftIndex.file key left }.Filed unlisted where
  listed := F.listed
  keyed {left' other} := by
    simp only [Buckets.mem_get_file, F.keyed, Std.ExtTreeMap.getElem?_insert, Nat.compare_eq_eq]
    split
    · next h =>
      subst h
      simp [hnew]
    · next h => simp [h]
  separate := Buckets.separate_file F.separate

/-- Other facts are found for a left token. -/
theorem putFound (F : memory.Filed unlisted) (hacc : memory.accumulators[left]? = none)
    {facts : IdSet} {foundBy : Index}
    (hself : ∀ h, left ∈ foundBy.get h ↔ ¬ unlisted h ∧ h ∈ facts)
    (hother : ∀ left' h, left' ≠ left →
      (left' ∈ foundBy.get h ↔ left' ∈ memory.foundBy.get h)) :
    { memory with found := memory.found.insert left facts, foundBy }.Filed unlisted where
  listed {left' h} := by
    by_cases heq : left' = left
    · subst heq
      rw [hself]
      simp [LeftRecord.Lists, about, hacc]
    · have hne : ¬ left = left' := fun e => heq e.symm
      rw [hother left' h heq, F.listed]
      simp [LeftRecord.Lists, about, Std.ExtTreeMap.getElem?_insert, hne]
  keyed := F.keyed
  separate := F.separate

/-- Other facts contribute to the result of a left token. -/
theorem putAccumulator (F : memory.Filed unlisted) (hfound : memory.found[left]? = none)
    {acc : Accumulator} {foundBy : Index}
    (hself : ∀ h, left ∈ foundBy.get h ↔ ¬ unlisted h ∧ acc.contains h = true)
    (hother : ∀ left' h, left' ≠ left →
      (left' ∈ foundBy.get h ↔ left' ∈ memory.foundBy.get h)) :
    { memory with accumulators := memory.accumulators.insert left acc, foundBy }.Filed
      unlisted where
  listed {left' h} := by
    by_cases heq : left' = left
    · subst heq
      rw [hself]
      simp [LeftRecord.Lists, about, hfound]
    · have hne : ¬ left = left' := fun e => heq e.symm
      rw [hother left' h heq, F.listed]
      simp [LeftRecord.Lists, about, Std.ExtTreeMap.getElem?_insert, hne]
  keyed := F.keyed
  separate := F.separate

theorem imp {unlisted' : Handle → Prop} (F : memory.Filed unlisted)
    (h : ∀ i, unlisted i ↔ unlisted' i) : memory.Filed unlisted' where
  listed {left i} := by rw [F.listed, h]
  keyed := F.keyed
  separate := F.separate

/-- A fact is no longer listed. -/
theorem unlist (F : memory.Filed unlisted) (h : Handle) :
    { memory with foundBy := memory.foundBy.erase h }.Filed
      fun i => unlisted i ∨ i = h where
  listed {left i} := by
    rw [Index.get_erase]
    split
    · next heq => simp [heq]
    · next hne =>
      have hne' : ¬ i = h := fun e => hne e.symm
      simp [F.listed, hne', about]
  keyed := F.keyed
  separate := F.separate

/-- A fact that goes with no left token may count as listed. -/
theorem relist {h : Handle} (F : memory.Filed fun i => unlisted i ∨ i = h)
    (hno : ∀ left, ¬ (memory.about left false).Lists h) : memory.Filed unlisted where
  listed {left i} := by
    rw [F.listed, not_or]
    constructor
    · exact fun hi => ⟨hi.1.1, hi.2⟩
    · refine fun hi => ⟨⟨hi.1, ?_⟩, hi.2⟩
      rintro rfl
      exact hno left hi.2
  keyed := F.keyed
  separate := F.separate

end Filed

end NodeMemory

end RuleNet
