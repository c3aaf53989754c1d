/-
  The passage of values through documents, and of documents through values.

  * `Value.mapLeaves`, `Value.everyLeaf`, `Document.everyLeaf`: what is done, or holds, at every depth.
  * `Value.conveyed`: what arrives of a value without parts. An instant arrives as its text, and what
    is not a finite number as null.
  * `Document.read_ofValue`: a value arrives, and what arrives of it is what arrives of its leaves.
  * `Document.comes_back_iff`: a document comes back unless it has an integer of more than 64 bits.
  * `Document.passages`: both together.
-/
import RuleNet.Document.Basic

namespace RuleNet

/-! ## Leaves -/

namespace Value

mutual

/-- The value with every leaf changed, at every depth of arrays and objects. -/
def mapLeaves (f : Value → Value) : Value → Value
  | array items => array (mapLeavesOfItems f items)
  | object entries => object (mapLeavesOfEntries f entries)
  | leaf => f leaf

def mapLeavesOfItems (f : Value → Value) : List Value → List Value
  | [] => []
  | x :: xs => mapLeaves f x :: mapLeavesOfItems f xs

def mapLeavesOfEntries (f : Value → Value) : List (String × Value) → List (String × Value)
  | [] => []
  | (k, x) :: xs => (k, mapLeaves f x) :: mapLeavesOfEntries f xs

end

mutual

/-- Whether every leaf is as it should be, at every depth of arrays and objects. -/
def everyLeaf (p : Value → Bool) : Value → Bool
  | array items => everyLeafOfItems p items
  | object entries => everyLeafOfEntries p entries
  | leaf => p leaf

def everyLeafOfItems (p : Value → Bool) : List Value → Bool
  | [] => true
  | x :: xs => everyLeaf p x && everyLeafOfItems p xs

def everyLeafOfEntries (p : Value → Bool) : List (String × Value) → Bool
  | [] => true
  | (_, x) :: xs => everyLeaf p x && everyLeafOfEntries p xs

end

/-- What arrives of a leaf that goes through a document. -/
def conveyed : Value → Value
  | date t => text (t.rfc3339 "+00:00")
  | double x => if x.isFinite then double x else null
  | leaf => leaf

/-- Whether a leaf arrives as it is: it is neither an instant nor a double that is not finite. -/
def isPlain : Value → Bool
  | date _ => false
  | double x => x.isFinite
  | _ => true

mutual

/-- A value is left as it is if every leaf is. -/
theorem mapLeaves_conveyed_iff :
    ∀ v : Value, v.mapLeaves conveyed = v ↔ v.everyLeaf isPlain = true
  | null | boolean _ | integer _ | text _ => by simp [mapLeaves, everyLeaf, conveyed, isPlain]
  | date _ => by simp [mapLeaves, everyLeaf, conveyed, isPlain]
  | double x => by cases h : x.isFinite <;> simp [mapLeaves, everyLeaf, conveyed, isPlain, h]
  | array items => by simp [mapLeaves, everyLeaf, mapLeavesOfItems_conveyed_iff items]
  | object entries => by simp [mapLeaves, everyLeaf, mapLeavesOfEntries_conveyed_iff entries]

theorem mapLeavesOfItems_conveyed_iff : ∀ xs : List Value,
    mapLeavesOfItems conveyed xs = xs ↔ everyLeafOfItems isPlain xs = true
  | [] => by simp [mapLeavesOfItems, everyLeafOfItems]
  | x :: xs => by
    simp [mapLeavesOfItems, everyLeafOfItems, mapLeaves_conveyed_iff x,
      mapLeavesOfItems_conveyed_iff xs]

theorem mapLeavesOfEntries_conveyed_iff : ∀ xs : List (String × Value),
    mapLeavesOfEntries conveyed xs = xs ↔ everyLeafOfEntries isPlain xs = true
  | [] => by simp [mapLeavesOfEntries, everyLeafOfEntries]
  | (k, x) :: xs => by
    simp [mapLeavesOfEntries, everyLeafOfEntries, mapLeaves_conveyed_iff x,
      mapLeavesOfEntries_conveyed_iff xs]

end

end Value

namespace Document

mutual

/-- Whether every leaf is as it should be, at every depth of arrays and objects. -/
def everyLeaf (p : Document → Bool) : Document → Bool
  | array items => everyLeafOfItems p items
  | object entries => everyLeafOfEntries p entries
  | leaf => p leaf

def everyLeafOfItems (p : Document → Bool) : List Document → Bool
  | [] => true
  | x :: xs => everyLeaf p x && everyLeafOfItems p xs

def everyLeafOfEntries (p : Document → Bool) : List (String × Document) → Bool
  | [] => true
  | (_, x) :: xs => everyLeaf p x && everyLeafOfEntries p xs

end

/-- Whether a leaf is what some value leaves as: an integer has 64 bits, and a double is finite as all
    doubles of documents are. -/
def fits : Document → Bool
  | integer n => Integer64.holds n
  | double x => x.isFinite
  | _ => true

/-! ## Values through documents -/

theorem holds_toInt (i : Int64) : Integer64.holds i.toInt = true :=
  Integer64.holds_iff.2 ⟨i.le_toInt, Int.lt_add_one_iff.1 i.toInt_lt⟩

theorem readInteger_toInt (i : Int64) : readInteger i.toInt = .ok (.integer i) := by
  rw [readInteger, if_pos (holds_toInt i), Int64.ofInt_toInt]

theorem read_ofDouble (x : Binary64) : (ofDouble x).read = .ok (Value.double x).conveyed := by
  rw [ofDouble, Value.conveyed]
  split <;> rfl

mutual

/-- A value arrives, and what arrives of it is what arrives of its leaves. -/
theorem read_ofValue : ∀ v : Value, (ofValue v).read = .ok (v.mapLeaves Value.conveyed)
  | .null | .boolean _ | .text _ | .date _ => rfl
  | .integer i => readInteger_toInt i
  | .double x => read_ofDouble x
  | .array items => by rw [ofValue, read, readItems_ofItems items]; rfl
  | .object entries => by rw [ofValue, read, readFields_ofFields entries]; rfl

theorem readItems_ofItems : ∀ xs : List Value,
    readItems (ofItems xs) = .ok (Value.mapLeavesOfItems Value.conveyed xs)
  | [] => rfl
  | x :: xs => by rw [ofItems, readItems, read_ofValue x, readItems_ofItems xs]; rfl

theorem readFields_ofFields : ∀ xs : List (String × Value),
    readFields (ofFields xs) = .ok (Value.mapLeavesOfEntries Value.conveyed xs)
  | [] => rfl
  | (k, x) :: xs => by rw [ofFields, readFields, read_ofValue x, readFields_ofFields xs]; rfl

end

/-- The entries of an object arrive as the fields of a fact. -/
theorem factFields_ofFields : ∀ fields : Entries Value,
    Fact.readFields (ofFields fields) = .ok (Value.mapLeavesOfEntries Value.conveyed fields)
  | [] => rfl
  | (k, x) :: rest => by
    rw [ofFields, Fact.readFields, read_ofValue x, factFields_ofFields rest]
    rfl

mutual

/-- Values leave as documents whose integers have 64 bits and whose doubles are finite. -/
theorem everyLeaf_ofValue : ∀ v : Value, (ofValue v).everyLeaf fits = true
  | .null | .boolean _ | .text _ | .date _ => rfl
  | .integer i => holds_toInt i
  | .double x => by cases h : x.isFinite <;> simp [ofValue, ofDouble, h, everyLeaf, fits]
  | .array items => everyLeafOfItems_ofItems items
  | .object entries => everyLeafOfEntries_ofFields entries

theorem everyLeafOfItems_ofItems : ∀ xs : List Value,
    everyLeafOfItems fits (ofItems xs) = true
  | [] => rfl
  | x :: xs => by simp [ofItems, everyLeafOfItems, everyLeaf_ofValue x, everyLeafOfItems_ofItems xs]

theorem everyLeafOfEntries_ofFields : ∀ xs : List (String × Value),
    everyLeafOfEntries fits (ofFields xs) = true
  | [] => rfl
  | (k, x) :: xs => by
    simp [ofFields, everyLeafOfEntries, everyLeaf_ofValue x, everyLeafOfEntries_ofFields xs]

end

/-! ## Documents through values -/

/-- An integer of 64 bits comes back. -/
theorem read_integer {n : Int} (h : Integer64.holds n = true) :
    ∃ v, (integer n).read = .ok v ∧ ofValue v = integer n := by
  refine ⟨.integer (.ofInt n), if_pos h, congrArg integer ?_⟩
  obtain ⟨hleast, hgreatest⟩ := Integer64.holds_iff.1 h
  exact Int64.toInt_ofInt_of_le hleast (Int.lt_add_one_iff.2 hgreatest)

mutual

/-- A document comes back if its integers have 64 bits and its doubles are finite. -/
theorem read_of_fits : ∀ d : Document, d.everyLeaf fits = true →
    ∃ v, d.read = .ok v ∧ ofValue v = d
  | null, _ => ⟨.null, rfl, rfl⟩
  | boolean b, _ => ⟨.boolean b, rfl, rfl⟩
  | text s, _ => ⟨.text s, rfl, rfl⟩
  | integer _, h => read_integer h
  | double x, h => ⟨.double x, rfl, if_pos h⟩
  | array items, h => by
    obtain ⟨vs, hread, hback⟩ := readItems_of_fits items h
    exact ⟨.array vs, by rw [read, hread]; rfl, congrArg array hback⟩
  | object entries, h => by
    obtain ⟨vs, hread, hback⟩ := readFields_of_fits entries h
    exact ⟨.object vs, by rw [read, hread]; rfl, congrArg object hback⟩

theorem readItems_of_fits : ∀ xs : List Document, everyLeafOfItems fits xs = true →
    ∃ vs, readItems xs = .ok vs ∧ ofItems vs = xs
  | [], _ => ⟨[], rfl, rfl⟩
  | x :: xs, h => by
    obtain ⟨hfirst, hrest⟩ := Bool.and_eq_true_iff.1 h
    obtain ⟨v, hv, hx⟩ := read_of_fits x hfirst
    obtain ⟨vs, hvs, hxs⟩ := readItems_of_fits xs hrest
    refine ⟨v :: vs, ?_, ?_⟩
    · rw [readItems, hv, hvs]
      rfl
    · rw [ofItems, hx, hxs]

theorem readFields_of_fits : ∀ xs : List (String × Document), everyLeafOfEntries fits xs = true →
    ∃ vs, readFields xs = .ok vs ∧ ofFields vs = xs
  | [], _ => ⟨[], rfl, rfl⟩
  | (k, x) :: xs, h => by
    obtain ⟨hfirst, hrest⟩ := Bool.and_eq_true_iff.1 h
    obtain ⟨v, hv, hx⟩ := read_of_fits x hfirst
    obtain ⟨vs, hvs, hxs⟩ := readFields_of_fits xs hrest
    refine ⟨(k, v) :: vs, ?_, ?_⟩
    · rw [readFields, hv, hvs]
      rfl
    · rw [ofFields, hx, hxs]

end

/-- A document comes back just if its integers have 64 bits and its doubles are finite. -/
theorem comes_back_iff (d : Document) :
    (∃ v, d.read = .ok v ∧ ofValue v = d) ↔ d.everyLeaf fits = true := by
  refine ⟨?_, read_of_fits d⟩
  rintro ⟨v, -, rfl⟩
  exact everyLeaf_ofValue v

/-! ## Both ways -/

/-- A value arrives with the texts of its instants in their places, and null in place of every double
    that is not finite; so it arrives as it is just if it has neither, and what has arrived arrives
    once more as it is. A document comes back as it was just if its integers have 64 bits and its
    doubles are finite, as all documents of values are. The entries of an object arrive as the fields
    of a fact. -/
theorem passages :
    (∀ v : Value, (ofValue v).read = .ok (v.mapLeaves Value.conveyed)) ∧
    (∀ v : Value, (ofValue v).read = .ok v ↔ v.everyLeaf Value.isPlain = true) ∧
    (∀ v : Value, ((ofValue v).read >>= fun w => (ofValue w).read) = (ofValue v).read) ∧
    (∀ d : Document, (∃ v, d.read = .ok v ∧ ofValue v = d) ↔ d.everyLeaf fits = true) ∧
    (∀ v : Value, (ofValue v).everyLeaf fits = true) ∧
    ∀ (type : String) (fields : Entries Value), Fact.ofDocument type (ofValue (.object fields)) =
      .ok ⟨type, Value.mapLeavesOfEntries Value.conveyed fields⟩ := by
  refine ⟨read_ofValue, fun v => ?_, fun v => ?_, comes_back_iff, everyLeaf_ofValue,
    fun type fields => ?_⟩
  · rw [read_ofValue, Except.ok.injEq]
    exact v.mapLeaves_conveyed_iff
  · obtain ⟨w, hw, hback⟩ := read_of_fits _ (everyLeaf_ofValue v)
    rw [hw]
    show (ofValue w).read = _
    rw [hback, hw]
  · rw [ofValue, Fact.ofDocument, factFields_ofFields]
    rfl

/-- A measurement, with an instant and a rate that is not a number. -/
def measurement : Value :=
  .object [("at", .date ⟨-1, 500000000⟩), ("rates", .array [.double .nan, .integer 5])]

/-- The instant arrives as its text and the rate as null; an integer of more than 64 bits is one that does
    not come back. -/
theorem passages_measurement :
    (ofValue measurement).read = .ok (.object
      [("at", .text "1969-12-31T23:59:59.500+00:00"), ("rates", .array [.null, .integer 5])]) ∧
    (ofValue measurement).read ≠ .ok measurement ∧
    (∃ v, (ofValue measurement).read = .ok v ∧ (ofValue v).read = .ok v) ∧
    ¬ ∃ v, (Document.integer 9223372036854775808).read = .ok v ∧
      ofValue v = .integer 9223372036854775808 := by
  obtain ⟨harrives, hplain, hagain, hback, -⟩ := passages
  have hread := harrives measurement
  refine ⟨hread.trans (congrArg Except.ok (by rfl)), fun h => ?_, ⟨_, hread, ?_⟩, fun h => ?_⟩
  · exact absurd ((hplain measurement).1 h) (by decide)
  · have htwice := hagain measurement
    rw [hread] at htwice
    exact htwice
  · exact absurd ((hback _).1 h) (by decide)

end Document

end RuleNet
