/-
  Working memory: its indexes hold what lives, and every handle is given out once.

  Next to the map of the live facts there is an index by type and, in equality mode, an index by value.
  Facts become equal and unequal as they are changed, so a value has as many handles as facts hold it.

  * `WorkingMemory.entry?_insert`, `replace?_live`, `remove?_live`: what becomes of the entries.
  * `WorkingMemory.Filed`: the indexes hold what lives; `Filed.after`: each act keeps it.
  * `WorkingMemory.left`: what acts leave of an inserted fact; `entry?_run`: that is what the memory has.
  * `WorkingMemory.ofType_eq`, `findEqual?_eq`: the indexes answer as a search through the list would.
  * `WorkingMemory.keeps_what_lives`: after any acts on an empty memory it remembers what was inserted and
    not removed.
-/
import Mathlib.Data.List.Nodup
import RuleNet.Proofs.Agenda
import RuleNet.Proofs.Data.Filing
import RuleNet.Proofs.Fact.Digest
import RuleNet.WorkingMemory

namespace RuleNet.WorkingMemory

/-! ## Entries -/

section
variable {memory : WorkingMemory} {h : Handle} {entry : Entry}

theorem entry?_insert (memory : WorkingMemory) (fact : Fact) (moment : Moment) (i : Handle) :
    WorkingMemory.entry? (memory.insert fact moment) i =
      if memory.nextHandle = i then some ⟨fact, moment, 0⟩ else memory.entry? i :=
  getElem?_insert_eq _ _ _ _

/-- A live fact can be given a value of its type. -/
theorem replace?_live (he : memory.entry? h = some entry) {fact : Fact}
    (ht : entry.fact.type = fact.type) (moment : Moment) :
    ∃ store, memory.replace? h fact moment = .ok (entry, store) ∧
      store.nextHandle = memory.nextHandle ∧ store.mode = memory.mode ∧
      ∀ i, store.entry? i =
        if h = i then some ⟨fact, moment, entry.generation + 1⟩ else memory.entry? i := by
  unfold replace?
  rw [he]
  refine ⟨_, if_neg (not_not_intro ht), rfl, rfl, fun i => ?_⟩
  exact getElem?_insert_eq _ _ _ _

/-- A live fact can be removed. -/
theorem remove?_live (he : memory.entry? h = some entry) :
    ∃ store, memory.remove? h = .ok (entry, store) ∧ store.nextHandle = memory.nextHandle ∧
      store.mode = memory.mode ∧
      ∀ i, store.entry? i = if h = i then none else memory.entry? i := by
  unfold remove?
  rw [he]
  refine ⟨_, rfl, rfl, rfl, fun i => ?_⟩
  exact getElem?_erase_eq _ _ _

/-- What was removed had been live. -/
theorem remove?_ok {store : WorkingMemory} (hr : memory.remove? h = .ok (entry, store)) :
    store.nextHandle = memory.nextHandle ∧
      ∀ i, store.entry? i = if h = i then none else memory.entry? i := by
  cases he : memory.entry? h with
  | none =>
    rw [remove?, he] at hr
    cases hr
  | some old =>
    obtain ⟨store', hr', hnext, -, hentry⟩ := remove?_live he
    obtain ⟨rfl, rfl⟩ := Prod.mk.inj (Except.ok.inj (hr.symm.trans hr'))
    exact ⟨hnext, hentry⟩

/-- What was replaced had been live. -/
theorem replace?_ok {store : WorkingMemory} {fact : Fact} {moment : Moment}
    (hr : memory.replace? h fact moment = .ok (entry, store)) :
    memory.entry? h = some entry ∧ store.nextHandle = memory.nextHandle ∧ ∀ i, store.entry? i =
      if h = i then some ⟨fact, moment, entry.generation + 1⟩ else memory.entry? i := by
  cases he : memory.entry? h with
  | none =>
    rw [replace?, he] at hr
    cases hr
  | some old =>
    by_cases ht : old.fact.type = fact.type
    · obtain ⟨store', hr', hnext, -, hentry⟩ := replace?_live he ht moment
      obtain ⟨rfl, rfl⟩ := Prod.mk.inj (Except.ok.inj (hr.symm.trans hr'))
      exact ⟨rfl, hnext, hentry⟩
    · simp only [replace?, he, ne_eq, ht, not_false_eq_true, if_true] at hr
      cases hr

theorem contains_iff : memory.contains h = true ↔ ∃ entry, memory.entry? h = some entry := by
  rw [contains, Std.ExtTreeMap.contains_eq_isSome_getElem?, Option.isSome_iff_exists]
  rfl

theorem fact?_eq (he : memory.entry? h = some entry) : memory.fact? h = some entry.fact := by
  rw [fact?, he]
  rfl

theorem fact?_eq_some {fact : Fact} :
    memory.fact? h = some fact ↔ ∃ entry, memory.entry? h = some entry ∧ entry.fact = fact := by
  rw [fact?, Option.map_eq_some_iff]

/-- A change fails where no fact lives or the type is another one. -/
theorem replace?_error {fact : Fact} {moment : Moment} {error : EngineError} :
    memory.replace? h fact moment = .error error ↔
      (memory.fact? h = none ∧ error = .unknownHandle h) ∨
      ∃ previous, memory.fact? h = some previous ∧ previous.type ≠ fact.type ∧
        error = .schema previous.type (.typeChange h fact.type) := by
  unfold replace? fact?
  cases memory.entry? h with
  | none => simp [eq_comm]
  | some previous =>
    by_cases htype : previous.fact.type = fact.type
    · simp [htype]
    · simp [htype, @eq_comm _ error]

/-- A removal fails where no fact lives. -/
theorem remove?_error {error : EngineError} :
    memory.remove? h = .error error ↔ memory.fact? h = none ∧ error = .unknownHandle h := by
  unfold remove? fact?
  cases memory.entry? h with
  | none => simp [eq_comm]
  | some previous => simp

end

/-! ## Acts -/

/-- What is done to a working memory. -/
inductive Act where
  | insert (fact : Fact) (moment : Moment)
  | replace (h : Handle) (fact : Fact) (moment : Moment)
  | remove (h : Handle)

/-- A memory after an act; an act that fails leaves it as it is. -/
def after (memory : WorkingMemory) : Act → WorkingMemory
  | .insert fact moment => memory.insert fact moment
  | .replace h fact moment => match memory.replace? h fact moment with
    | .ok (_, memory) => memory
    | .error _ => memory
  | .remove h => match memory.remove? h with
    | .ok (_, memory) => memory
    | .error _ => memory

/-- A memory after acts in a row. -/
def run (memory : WorkingMemory) (acts : List Act) : WorkingMemory := acts.foldl after memory

/-- The handles that live after an act and did not live before it, one act after the other. -/
def issued (memory : WorkingMemory) : List Act → List Handle
  | [] => []
  | act :: rest => (memory.after act).entries.keys.filter (fun h => !memory.contains h) ++
    (memory.after act).issued rest

/-- Whether an act gives the fact of a handle a new value. -/
def replaces (memory : WorkingMemory) (h : Handle) : Act → Bool
  | .replace i fact moment => i == h && (memory.replace? i fact moment).isOk
  | _ => false

/-- How many of the acts in a row do so. -/
def replaced (memory : WorkingMemory) (h : Handle) : List Act → Nat
  | [] => 0
  | act :: rest => (memory.replaces h act).toNat + (memory.after act).replaced h rest

namespace Act

def isInsert : Act → Bool
  | .insert .. => true
  | _ => false

theorem isInsert_iff {act : Act} : act.isInsert = true ↔ ∃ fact moment, act = .insert fact moment := by
  cases act <;> simp [isInsert]

def removes (h : Handle) : Act → Bool
  | .remove i => i == h
  | _ => false

/-- The value that an act has for the fact of a handle, if it is one of the fact's type. -/
def value? (h : Handle) (type : String) : Act → Option (Fact × Moment)
  | .replace i fact moment => if i = h ∧ type = fact.type then some (fact, moment) else none
  | _ => none

end Act

/-- What acts leave of a fact that lives: nothing if one of them removes it, and else the last value of
    its type that they have for it. -/
def left (h : Handle) (entry : Entry) (acts : List Act) : Option Entry :=
  if acts.any (Act.removes h) then none
  else
    let values := acts.filterMap (Act.value? h entry.fact.type)
    let last := values.getLastD (entry.fact, entry.moment)
    some ⟨last.1, last.2, entry.generation + values.length⟩

theorem run_append (memory : WorkingMemory) (acts more : List Act) :
    memory.run (acts ++ more) = (memory.run acts).run more := List.foldl_append

variable {memory : WorkingMemory}

/-- A change fails and nothing happens, or the live fact has the new value. -/
theorem after_replace (memory : WorkingMemory) (h : Handle) (fact : Fact) (moment : Moment) :
    ((∃ error, memory.replace? h fact moment = .error error) ∧
      memory.after (.replace h fact moment) = memory) ∨
    ∃ entry, memory.entry? h = some entry ∧ entry.fact.type = fact.type ∧
      (memory.replace? h fact moment).isOk = true ∧
      memory.after (.replace h fact moment) = { memory with
        entries := memory.entries.insert h ⟨fact, moment, entry.generation + 1⟩
        byValue :=
          if memory.mode = .equality then (memory.byValue.unfile entry.fact h).file fact h
          else memory.byValue } := by
  have hfails : ∀ {error}, memory.replace? h fact moment = .error error →
      memory.after (.replace h fact moment) = memory := fun hfail => by simp only [after, hfail]
  cases he : memory.entry? h with
  | none =>
    have hfail : memory.replace? h fact moment = .error (.unknownHandle h) :=
      replace?_error.2 (.inl ⟨Option.map_eq_none_iff.2 he, rfl⟩)
    exact .inl ⟨⟨_, hfail⟩, hfails hfail⟩
  | some entry =>
    by_cases htype : entry.fact.type = fact.type
    · right
      have hok : memory.replace? h fact moment = .ok (entry, { memory with
          entries := memory.entries.insert h ⟨fact, moment, entry.generation + 1⟩
          byValue :=
            if memory.mode = .equality then (memory.byValue.unfile entry.fact h).file fact h
            else memory.byValue }) := by
        simp only [replace?, he, htype, ne_eq, not_true, if_false]
      exact ⟨entry, rfl, htype, by rw [hok]; rfl, by simp only [after, hok]⟩
    · have hfail : memory.replace? h fact moment =
          .error (.schema entry.fact.type (.typeChange h fact.type)) :=
        replace?_error.2 (.inr ⟨entry.fact, fact?_eq he, htype, rfl⟩)
      exact .inl ⟨⟨_, hfail⟩, hfails hfail⟩

/-- A removal fails and nothing happens, or the live fact goes. -/
theorem after_remove (memory : WorkingMemory) (h : Handle) :
    ((∃ error, memory.remove? h = .error error) ∧ memory.after (.remove h) = memory) ∨
    ∃ entry, memory.entry? h = some entry ∧ memory.after (.remove h) = { memory with
      entries := memory.entries.erase h
      byValue :=
        if memory.mode = .equality then memory.byValue.unfile entry.fact h else memory.byValue
      byType := memory.byType.unfile entry.fact.type h } := by
  cases he : memory.entry? h with
  | none =>
    have hfail := remove?_error.2 ⟨Option.map_eq_none_iff.2 he, rfl⟩
    exact .inl ⟨⟨_, hfail⟩, by simp only [after, hfail]⟩
  | some entry => exact .inr ⟨entry, rfl, by simp only [after, remove?, he]⟩

/-! ## The indexes -/

/-- The indexes of a memory hold what lives. -/
structure Filed (memory : WorkingMemory) : Prop where
  fresh : ∀ {h entry}, memory.entry? h = some entry → h < memory.nextHandle
  types : memory.byType.Separate
  byType : ∀ {type h}, h ∈ memory.byType.get type ↔
    ∃ entry, memory.entry? h = some entry ∧ entry.fact.type = type
  values : memory.byValue.Separate
  byValue : memory.mode = .equality → ∀ {fact h}, h ∈ memory.byValue.get fact ↔
    ∃ entry, memory.entry? h = some entry ∧ entry.fact == fact

theorem filed_empty (mode : IdentityMode) : (empty mode).Filed where
  fresh he := by simp [empty, entry?] at he
  types := Buckets.separate_nil
  byType := by simp [empty, entry?, Buckets.get, Buckets.find?]
  values := Buckets.separate_nil
  byValue := by simp [empty, entry?, Buckets.get, Buckets.find?]

namespace Filed

theorem insert (F : memory.Filed) (fact : Fact) (moment : Moment) :
    (memory.insert fact moment).Filed := by
  have hfree : memory.entry? memory.nextHandle = none :=
    Option.eq_none_iff_forall_ne_some.2 fun entry he => Nat.lt_irrefl _ (F.fresh he)
  -- an index finds the new handle under what the new fact is filed under, and the others as before
  have hindex : ∀ (P : Fact → Prop) h,
      (∃ entry, WorkingMemory.entry? (memory.insert fact moment) h = some entry ∧ P entry.fact) ↔
        (P fact ∧ memory.nextHandle = h) ∨
          ∃ entry, memory.entry? h = some entry ∧ P entry.fact := by
    intro P h
    rw [entry?_insert]
    split
    · next heq =>
      subst heq
      simp [hfree]
    · next hne => simp [hne]
  constructor
  case fresh =>
    intro h entry he
    rw [entry?_insert] at he
    split at he
    · next heq => exact heq ▸ Nat.lt_succ_self _
    · exact Nat.lt_succ_of_lt (F.fresh he)
  case types => exact Buckets.separate_file F.types
  case byType =>
    intro type h
    rw [hindex (fun f => f.type = type), ← F.byType, WorkingMemory.insert, Buckets.mem_get_file,
      beq_iff_eq]
  case values =>
    change Buckets.Separate (if memory.mode = .equality then _ else _)
    split
    · exact Buckets.separate_file F.values
    · exact F.values
  case byValue =>
    intro hmode key h
    have hmode' : memory.mode = .equality := hmode
    rw [hindex (fun f => (f == key) = true), ← F.byValue hmode', WorkingMemory.insert, if_pos hmode',
      Buckets.mem_get_file]

theorem replace (F : memory.Filed) (h : Handle) (fact : Fact) (moment : Moment) :
    (memory.after (.replace h fact moment)).Filed := by
  rcases after_replace memory h fact moment with ⟨-, hafter⟩ | ⟨previous, he, htype, -, hafter⟩
  · rw [hafter]
    exact F
  have hentry : ∀ i, WorkingMemory.entry? (memory.after (.replace h fact moment)) i =
      if h = i then some ⟨fact, moment, previous.generation + 1⟩ else memory.entry? i := fun i => by
    rw [hafter]
    exact getElem?_insert_eq _ _ _ _
  constructor
  case fresh =>
    intro i entry hi
    rw [hafter]
    rw [hentry] at hi
    split at hi
    · next heq => exact heq ▸ F.fresh he
    · exact F.fresh hi
  case types =>
    rw [hafter]
    exact F.types
  case byType =>
    intro type i
    rw [hafter]
    change i ∈ memory.byType.get type ↔ ∃ entry, WorkingMemory.entry? _ i = some entry ∧ _
    rw [← hafter, hentry, F.byType]
    split
    · next heq =>
      subst heq
      simp [he, htype]
    · rfl
  case values =>
    rw [hafter]
    change Buckets.Separate (if memory.mode = .equality then _ else _)
    split
    · exact Buckets.separate_file (Buckets.separate_unfile F.values)
    · exact F.values
  case byValue =>
    intro hmode key i
    have hmode' : memory.mode = .equality := by rwa [hafter] at hmode
    have hkeys : (memory.after (.replace h fact moment)).byValue =
        (memory.byValue.unfile previous.fact h).file fact h := by
      rw [hafter]
      exact if_pos hmode'
    rw [hkeys, Buckets.mem_get_file, Buckets.mem_get_unfile F.values, F.byValue hmode', hentry]
    split
    · next heq =>
      subst heq
      simp [he]
    · next hne => simp [hne]

theorem remove (F : memory.Filed) (h : Handle) : (memory.after (.remove h)).Filed := by
  rcases after_remove memory h with ⟨-, hafter⟩ | ⟨previous, he, hafter⟩
  · rw [hafter]
    exact F
  have hentry : ∀ i, WorkingMemory.entry? (memory.after (.remove h)) i =
      if h = i then none else memory.entry? i := fun i => by
    rw [hafter]
    exact getElem?_erase_eq _ _ _
  constructor
  case fresh =>
    intro i entry hi
    rw [hafter]
    rw [hentry] at hi
    split at hi
    · cases hi
    · exact F.fresh hi
  case types =>
    rw [hafter]
    exact Buckets.separate_unfile F.types
  case byType =>
    intro type i
    have hkeys : (memory.after (.remove h)).byType = memory.byType.unfile previous.fact.type h := by
      rw [hafter]
    rw [hkeys, Buckets.mem_get_unfile F.types, F.byType, hentry]
    split
    · next heq =>
      subst heq
      simp [he]
    · next hne => simp [hne]
  case values =>
    rw [hafter]
    change Buckets.Separate (if memory.mode = .equality then _ else _)
    split
    · exact Buckets.separate_unfile F.values
    · exact F.values
  case byValue =>
    intro hmode key i
    have hmode' : memory.mode = .equality := by rwa [hafter] at hmode
    have hkeys : (memory.after (.remove h)).byValue = memory.byValue.unfile previous.fact h := by
      rw [hafter]
      exact if_pos hmode'
    rw [hkeys, Buckets.mem_get_unfile F.values, F.byValue hmode', hentry]
    split
    · next heq =>
      subst heq
      simp [he]
    · next hne => simp [hne]

/-- Every act keeps the indexes. -/
theorem after (F : memory.Filed) (act : Act) : (memory.after act).Filed := by
  cases act with
  | insert fact moment => exact F.insert fact moment
  | replace h fact moment => exact F.replace h fact moment
  | remove h => exact F.remove h

theorem run (F : memory.Filed) (acts : List Act) : (memory.run acts).Filed := by
  induction acts generalizing memory with
  | nil => exact F
  | cons act rest ih => exact ih (F.after act)

end Filed

/-! ## The course of a handle -/

theorem left_removed {h : Handle} {act : Act} (hr : act.removes h = true) (entry : Entry)
    (rest : List Act) : left h entry (act :: rest) = none :=
  if_pos (by rw [List.any_cons, hr, Bool.true_or])

theorem left_untouched {h : Handle} {act : Act} {entry : Entry} (hr : act.removes h = false)
    (hv : act.value? h entry.fact.type = none) (rest : List Act) :
    left h entry (act :: rest) = left h entry rest := by
  simp only [left, List.any_cons, hr, Bool.false_or, List.filterMap_cons, hv]

theorem left_replaced {h : Handle} {entry : Entry} {fact : Fact} (ht : entry.fact.type = fact.type)
    (moment : Moment) (rest : List Act) : left h entry (.replace h fact moment :: rest) =
      left h ⟨fact, moment, entry.generation + 1⟩ rest := by
  simp only [left, List.any_cons, Act.removes, Bool.false_or, List.filterMap_cons, Act.value?, ht,
    true_and, if_true, List.getLastD_cons, List.length_cons]
  rw [Nat.add_right_comm, Nat.add_assoc]

/-- What is left has the type that it had, and its generation counts the values. -/
theorem left_eq_some {h : Handle} {entry entry' : Entry} {acts : List Act}
    (hl : left h entry acts = some entry') : acts.any (Act.removes h) = false ∧
      entry.fact.type = entry'.fact.type ∧ entry'.generation =
        entry.generation + (acts.filterMap (Act.value? h entry.fact.type)).length := by
  unfold left at hl
  split at hl
  · cases hl
  · next hno =>
    cases hl
    refine ⟨Bool.eq_false_iff.2 hno, ?_, rfl⟩
    rcases List.eq_nil_or_concat (acts.filterMap (Act.value? h entry.fact.type)) with hnil | ⟨_, last, hlast⟩
    · rw [hnil]
      rfl
    · have hmem : last ∈ acts.filterMap (Act.value? h entry.fact.type) := by simp [hlast]
      obtain ⟨act, -, hact⟩ := List.mem_filterMap.1 hmem
      rw [hlast, List.concat_eq_append, List.getLastD_concat]
      cases act with
      | replace i fact moment =>
        obtain ⟨⟨-, htype⟩, heq⟩ := Option.ite_none_right_eq_some.1 hact
        cases heq
        exact htype
      | insert fact moment => cases hact
      | remove i => cases hact

/-- An act makes of the fact of a handle what it says. -/
theorem left_after {act : Act} {h : Handle} {entry : Entry} (he : memory.entry? h = some entry)
    (hlt : h < memory.nextHandle) (rest : List Act) : left h entry (act :: rest) =
      (WorkingMemory.entry? (memory.after act) h).bind fun entry => left h entry rest := by
  cases act with
  | insert fact moment =>
    rw [left_untouched rfl rfl, after, entry?_insert, if_neg (Nat.ne_of_gt hlt), he]
    rfl
  | replace i fact moment =>
    have hstays : ¬ (i = h ∧ entry.fact.type = fact.type) →
        left h entry (.replace i fact moment :: rest) = left h entry rest := fun hno => by
      have hv : (Act.replace i fact moment).value? h entry.fact.type = none := if_neg hno
      exact left_untouched rfl hv rest
    rcases after_replace memory i fact moment with ⟨⟨error, hfail⟩, hafter⟩ |
      ⟨previous, hi, htype, -, hafter⟩
    · rw [hafter, he]
      refine hstays ?_
      rintro ⟨rfl, htype⟩
      obtain ⟨store, hok, -⟩ := replace?_live he htype moment
      rw [hok] at hfail
      cases hfail
    · have hentry : WorkingMemory.entry? (memory.after (.replace i fact moment)) h =
          if i = h then some ⟨fact, moment, previous.generation + 1⟩ else memory.entry? h := by
        rw [hafter]
        exact getElem?_insert_eq _ _ _ _
      rw [hentry]
      split
      · next heq =>
        subst heq
        obtain rfl := Option.some.inj (hi.symm.trans he)
        exact left_replaced htype moment rest
      · next hne =>
        rw [he]
        exact hstays fun h => hne h.1
  | remove i =>
    have hstays : i ≠ h → left h entry (.remove i :: rest) = left h entry rest := fun hne => by
      have hr : (Act.remove i).removes h = false := beq_eq_false_iff_ne.2 hne
      exact left_untouched hr rfl rest
    rcases after_remove memory i with ⟨⟨error, hfail⟩, hafter⟩ | ⟨previous, hi, hafter⟩
    · rw [hafter, he]
      refine hstays ?_
      rintro rfl
      obtain ⟨store, hok, -⟩ := remove?_live he
      rw [hok] at hfail
      cases hfail
    · have hentry : WorkingMemory.entry? (memory.after (.remove i)) h =
          if i = h then none else memory.entry? h := by
        rw [hafter]
        exact getElem?_erase_eq _ _ _
      rw [hentry]
      split
      · next heq =>
        subst heq
        have hr : (Act.remove i).removes i = true := beq_self_eq_true i
        exact left_removed hr entry rest
      · next hne =>
        rw [he]
        exact hstays hne

/-- What does not live under a handle that has been given does not come back. -/
theorem entry?_after_none {act : Act} {h : Handle} (he : memory.entry? h = none)
    (hlt : h < memory.nextHandle) : WorkingMemory.entry? (memory.after act) h = none := by
  cases act with
  | insert fact moment => rw [after, entry?_insert, if_neg (Nat.ne_of_gt hlt), he]
  | replace i fact moment =>
    rcases after_replace memory i fact moment with ⟨-, hafter⟩ | ⟨previous, hi, -, -, hafter⟩
    · rw [hafter, he]
    · have hne : i ≠ h := by
        rintro rfl
        rw [hi] at he
        cases he
      rw [hafter]
      exact (getElem?_insert_eq _ _ _ _).trans ((if_neg hne).trans he)
  | remove i =>
    rcases after_remove memory i with ⟨-, hafter⟩ | ⟨previous, hi, hafter⟩
    · rw [hafter, he]
    · rw [hafter]
      refine (getElem?_erase_eq _ _ _).trans ?_
      split
      · rfl
      · exact he

/-- An insertion gives the next handle, and no other act gives any. -/
theorem nextHandle_after (memory : WorkingMemory) (act : Act) :
    (memory.after act).nextHandle = memory.nextHandle + act.isInsert.toNat := by
  cases act with
  | insert fact moment => rfl
  | replace i fact moment =>
    rcases after_replace memory i fact moment with ⟨-, hafter⟩ | ⟨previous, -, -, -, hafter⟩ <;>
      rw [hafter] <;> exact (Nat.add_zero _).symm
  | remove i =>
    rcases after_remove memory i with ⟨-, hafter⟩ | ⟨previous, -, hafter⟩ <;>
      rw [hafter] <;> exact (Nat.add_zero _).symm

theorem nextHandle_run (memory : WorkingMemory) (acts : List Act) :
    (memory.run acts).nextHandle = memory.nextHandle + acts.countP Act.isInsert := by
  induction acts generalizing memory with
  | nil => rfl
  | cons act rest ih =>
    refine (ih _).trans ?_
    rw [nextHandle_after, List.countP_cons]
    cases act.isInsert
    · rfl
    · exact Nat.add_right_comm _ _ _

theorem mode_run (memory : WorkingMemory) (acts : List Act) :
    (memory.run acts).mode = memory.mode := by
  induction acts generalizing memory with
  | nil => rfl
  | cons act rest ih =>
    refine (ih _).trans ?_
    cases act with
    | insert fact moment => rfl
    | replace i fact moment =>
      rcases after_replace memory i fact moment with ⟨-, hafter⟩ | ⟨previous, -, -, -, hafter⟩ <;>
        rw [hafter]
    | remove i =>
      rcases after_remove memory i with ⟨-, hafter⟩ | ⟨previous, -, hafter⟩ <;> rw [hafter]

/-- The handle that an act gives lives after it and did not live before it. -/
theorem Filed.issued_after (F : memory.Filed) (act : Act) :
    (memory.after act).entries.keys.filter (fun h => !memory.contains h) =
      List.range' memory.nextHandle act.isInsert.toNat := by
  have hmem : ∀ {h}, h ∈ (memory.after act).entries.keys.filter (fun h => !memory.contains h) ↔
      (∃ entry, WorkingMemory.entry? (memory.after act) h = some entry) ∧
        ∀ entry, memory.entry? h ≠ some entry := by
    intro h
    rw [List.mem_filter, Std.ExtTreeMap.mem_keys, Bool.not_eq_true', ← Bool.not_eq_true, contains_iff,
      not_exists, ← Std.ExtTreeMap.contains_iff_mem]
    exact and_congr_left' contains_iff
  cases hinsert : act.isInsert with
  | false =>
    have hnext : (memory.after act).nextHandle = memory.nextHandle := by
      rw [nextHandle_after, hinsert]
      rfl
    refine List.eq_nil_iff_forall_not_mem.2 fun h hin => ?_
    obtain ⟨⟨entry, he⟩, hnew⟩ := hmem.1 hin
    have hnone : memory.entry? h = none := Option.eq_none_iff_forall_ne_some.2 hnew
    rw [entry?_after_none hnone (hnext ▸ (F.after act).fresh he)] at he
    cases he
  | true =>
    obtain ⟨fact, moment, rfl⟩ := Act.isInsert_iff.1 hinsert
    refine List.perm_singleton.1 ((List.perm_ext_iff_of_nodup (Std.ExtTreeMap.nodup_keys.filter _)
      (List.nodup_singleton _)).2 fun h => ?_)
    rw [hmem, List.mem_singleton, WorkingMemory.after, entry?_insert]
    constructor
    · rintro ⟨⟨entry, he⟩, hnew⟩
      split at he
      · next heq => exact heq.symm
      · exact absurd he (hnew entry)
    · rintro rfl
      exact ⟨⟨_, if_pos rfl⟩, fun entry he => Nat.lt_irrefl _ (F.fresh he)⟩

/-- Acts in a row give handles in a row, one for each insertion. -/
theorem Filed.issued_run (F : memory.Filed) (acts : List Act) :
    memory.issued acts = List.range' memory.nextHandle (acts.countP Act.isInsert) := by
  induction acts generalizing memory with
  | nil => rfl
  | cons act rest ih =>
    rw [issued, F.issued_after act, ih (F.after act), nextHandle_after, List.range'_append_1,
      List.countP_cons]
    cases act.isInsert <;> simp [Nat.add_comm]

theorem lt_nextHandle_after (memory : WorkingMemory) (act : Act) {h : Handle}
    (hlt : h < memory.nextHandle) : h < (memory.after act).nextHandle := by
  rw [nextHandle_after]
  exact Nat.lt_add_right _ hlt

/-- Under a handle that has been given a memory has what acts in a row leave of it. -/
theorem entry?_run {h : Handle} (hlt : h < memory.nextHandle) (acts : List Act) :
    WorkingMemory.entry? (memory.run acts) h =
      (memory.entry? h).bind fun entry => left h entry acts := by
  induction acts generalizing memory with
  | nil => cases h : memory.entry? h <;> exact h
  | cons act rest ih =>
    refine (ih (lt_nextHandle_after memory act hlt)).trans ?_
    cases he : memory.entry? h with
    | none => rw [entry?_after_none he hlt, Option.bind_none]; rfl
    | some entry => exact (left_after he hlt rest).symm

theorem replaces_eq {h : Handle} {entry : Entry} (he : memory.entry? h = some entry) (act : Act) :
    memory.replaces h act = (act.value? h entry.fact.type).isSome := by
  cases act with
  | insert fact moment => rfl
  | remove i => rfl
  | replace i fact moment =>
    by_cases hi : i = h
    · subst hi
      by_cases htype : entry.fact.type = fact.type
      · obtain ⟨store, hok, -⟩ := replace?_live he htype moment
        simp [replaces, Act.value?, hok, htype, Except.isOk, Except.toBool]
      · have hfail : memory.replace? i fact moment =
            .error (.schema entry.fact.type (.typeChange i fact.type)) :=
          replace?_error.2 (.inr ⟨entry.fact, fact?_eq he, htype, rfl⟩)
        simp [replaces, Act.value?, hfail, htype, Except.isOk, Except.toBool]
    · simp [replaces, Act.value?, hi]

/-- Where a fact is not removed, the acts that give it a new value are those that have one of its
    type. -/
theorem replaced_eq {h : Handle} {entry : Entry} {acts : List Act}
    (he : memory.entry? h = some entry) (hlt : h < memory.nextHandle)
    (hno : acts.any (Act.removes h) = false) :
    memory.replaced h acts = (acts.filterMap (Act.value? h entry.fact.type)).length := by
  induction acts generalizing memory entry with
  | nil => rfl
  | cons act rest ih =>
    obtain ⟨hact, hrest⟩ := Bool.or_eq_false_iff.1 (List.any_cons ▸ hno)
    have hleft : left h entry [act] = WorkingMemory.entry? (memory.after act) h :=
      (left_after he hlt []).trans (Option.bind_fun_some _)
    cases he' : WorkingMemory.entry? (memory.after act) h with
    | none =>
      have hgone : left h entry [act] = none := hleft.trans he'
      simp [left, hact] at hgone
    | some entry' =>
      obtain ⟨-, htype, -⟩ := left_eq_some (hleft.trans he')
      rw [replaced, replaces_eq he, ih he' (lt_nextHandle_after memory act hlt) hrest, ← htype,
        List.filterMap_cons]
      cases act.value? h entry.fact.type with
      | none => exact Nat.zero_add _
      | some value => exact Nat.add_comm _ _

/-- What lives under a handle was inserted when the handle was given, or the handle was given before. -/
theorem Filed.inserted (F : memory.Filed) {acts : List Act} {h : Handle} {entry : Entry}
    (he : WorkingMemory.entry? (memory.run acts) h = some entry) : h < memory.nextHandle ∨
      ∃ before fact moment later, acts = before ++ .insert fact moment :: later ∧
        (memory.run before).nextHandle = h := by
  induction acts generalizing memory with
  | nil => exact .inl (F.fresh he)
  | cons act rest ih =>
    rcases ih (F.after act) he with hlt | ⟨before, fact, moment, later, rfl, hgiven⟩
    · rw [nextHandle_after] at hlt
      cases hinsert : act.isInsert with
      | false => exact .inl (by rwa [hinsert] at hlt)
      | true =>
        rw [hinsert] at hlt
        obtain ⟨fact, moment, rfl⟩ := Act.isInsert_iff.1 hinsert
        rcases Nat.lt_succ_iff_lt_or_eq.1 hlt with hold | hnew
        · exact .inl hold
        · exact .inr ⟨[], fact, moment, rest, rfl, hnew.symm⟩
    · exact .inr ⟨act :: before, fact, moment, later, rfl, hgiven⟩

/-! ## Looking -/

theorem sorted_toList (memory : WorkingMemory) : memory.toList.Pairwise fun a b => a.1 < b.1 := by
  rw [toList, List.pairwise_map]
  exact Std.ExtTreeMap.ordered_keys_toList.imp Nat.compare_eq_lt.1

theorem mem_toList {h : Handle} {fact : Fact} :
    (h, fact) ∈ memory.toList ↔ memory.fact? h = some fact := by
  rw [fact?_eq_some, toList, List.mem_map]
  constructor
  · rintro ⟨⟨i, entry⟩, hin, heq⟩
    obtain ⟨rfl, rfl⟩ := Prod.mk.inj heq
    exact ⟨entry, Std.ExtTreeMap.mem_toList_iff_getElem?_eq_some.1 hin, rfl⟩
  · rintro ⟨entry, he, rfl⟩
    exact ⟨(h, entry), Std.ExtTreeMap.mem_toList_iff_getElem?_eq_some.2 he, rfl⟩

/-- The facts of a type are the ones that a search through all facts would find. -/
theorem Filed.ofType_eq (F : memory.Filed) (type : String) :
    memory.ofType type = memory.toList.filter fun a => a.2.type = type := by
  refine eq_of_ascending (fun _ _ => Nat.lt_asymm) ?_ ((sorted_toList memory).filter _) ?_
  · refine List.Pairwise.filterMap _ ?_ Std.ExtTreeSet.ordered_toList
    intro i j hlt a ha b hb
    obtain ⟨fact, -, rfl⟩ := Option.map_eq_some_iff.1 ha
    obtain ⟨fact', -, rfl⟩ := Option.map_eq_some_iff.1 hb
    exact Nat.compare_eq_lt.1 hlt
  · rintro ⟨h, fact⟩
    rw [List.mem_filter, mem_toList, ofType, List.mem_filterMap, decide_eq_true_iff]
    constructor
    · rintro ⟨i, hi, hmap⟩
      obtain ⟨_, hfact, heq⟩ := Option.map_eq_some_iff.1 hmap
      obtain ⟨rfl, rfl⟩ := Prod.mk.inj heq
      obtain ⟨entry, he, htype⟩ := F.byType.1 (Std.ExtTreeSet.mem_toList.1 hi)
      obtain rfl := Option.some.inj ((fact?_eq he).symm.trans hfact)
      exact ⟨hfact, htype⟩
    · rintro ⟨hfact, htype⟩
      obtain ⟨entry, he, rfl⟩ := fact?_eq_some.1 hfact
      exact ⟨h, Std.ExtTreeSet.mem_toList.2 (F.byType.2 ⟨entry, he, htype⟩), by rw [hfact]; rfl⟩

/-- The fact that is found for a value is the one that a search through all facts would find first. -/
theorem Filed.findEqual?_eq (F : memory.Filed) (hmode : memory.mode = .equality) (fact : Fact) :
    memory.findEqual? fact = (memory.toList.find? fun a => a.2 == fact).map Prod.fst := by
  have hset : ∀ {h}, h ∈ memory.byValue.get fact ↔
      ∃ f, (h, f) ∈ memory.toList ∧ (f == fact) = true := by
    intro h
    rw [F.byValue hmode]
    constructor
    · rintro ⟨entry, he, heq⟩
      exact ⟨entry.fact, mem_toList.2 (fact?_eq he), heq⟩
    · rintro ⟨f, hf, heq⟩
      obtain ⟨entry, he, rfl⟩ := fact?_eq_some.1 (mem_toList.1 hf)
      exact ⟨entry, he, heq⟩
  rw [findEqual?, hmode]
  change (memory.byValue.get fact).min? = _
  cases hfind : memory.toList.find? fun a => a.2 == fact with
  | none =>
    rw [Option.map_none, Std.ExtTreeSet.min?_eq_none_iff, ← Std.ExtTreeSet.isEmpty_iff,
      IdSet.isEmpty_iff_forall]
    intro h hin
    obtain ⟨f, hf, heq⟩ := hset.1 hin
    exact List.find?_eq_none.1 hfind _ hf heq
  | some found =>
    obtain ⟨h, f⟩ := found
    obtain ⟨heq, front, back, hlist, hfront⟩ := List.find?_eq_some_iff_append.1 hfind
    rw [Option.map_some, Std.ExtTreeSet.min?_eq_some_iff_mem_and_forall]
    refine ⟨hset.2 ⟨f, by rw [hlist]; exact List.mem_append_right _ List.mem_cons_self, heq⟩,
      fun i hi => Nat.isLE_compare.2 ?_⟩
    obtain ⟨g, hg, hgeq⟩ := hset.1 hi
    have hsorted := sorted_toList memory
    rw [hlist] at hg hsorted
    rcases List.mem_append.1 hg with hin | hin
    · have hnot := hfront _ hin
      rw [hgeq] at hnot
      cases hnot
    · rcases List.mem_cons.1 hin with hsame | hin
      · exact Nat.le_of_eq (congrArg Prod.fst hsame).symm
      · exact Nat.le_of_lt ((List.pairwise_cons.1 (List.pairwise_append.1 hsorted).2.1).1 _ hin)

/-! ## Any acts -/

theorem nextHandle_empty_run (mode : IdentityMode) (acts : List Act) :
    ((empty mode).run acts).nextHandle = acts.countP Act.isInsert + 1 :=
  (nextHandle_run _ acts).trans (Nat.add_comm _ _)

/-- What was inserted into an empty memory got the next number, and lives on as what later acts leave of
    it. -/
theorem entry?_inserted (mode : IdentityMode) (before later : List Act) (fact : Fact) (moment : Moment) :
    WorkingMemory.entry? ((empty mode).run (before ++ .insert fact moment :: later))
      (before.countP Act.isInsert + 1) =
        left (before.countP Act.isInsert + 1) ⟨fact, moment, 0⟩ later := by
  have hnext := nextHandle_empty_run mode before
  have hgiven : before.countP Act.isInsert + 1 <
      (((empty mode).run before).insert fact moment).nextHandle := by
    rw [← hnext]
    exact Nat.lt_succ_self _
  rw [run_append]
  refine (entry?_run hgiven later).trans ?_
  rw [entry?_insert, if_pos hnext]
  rfl

/-- What lives after acts on an empty memory was inserted by one of them. -/
theorem inserted_run {mode : IdentityMode} {acts : List Act} {h : Handle} {entry : Entry}
    (he : WorkingMemory.entry? ((empty mode).run acts) h = some entry) :
    ∃ before fact moment later, acts = before ++ .insert fact moment :: later ∧
      h = before.countP Act.isInsert + 1 := by
  have hold : ¬ h < (empty mode).nextHandle := fun hlt => by
    rw [entry?_run hlt acts] at he
    simp [empty, entry?] at he
  obtain ⟨before, fact, moment, later, hacts, rfl⟩ := ((filed_empty mode).inserted he).resolve_left hold
  exact ⟨before, fact, moment, later, hacts, nextHandle_empty_run mode before⟩

theorem after_replace_failed {h : Handle} {fact : Fact} {moment : Moment}
    (hfail : (memory.replace? h fact moment).isOk = false) :
    memory.after (.replace h fact moment) = memory := by
  rcases after_replace memory h fact moment with ⟨-, hafter⟩ | ⟨-, -, -, hok, -⟩
  · exact hafter
  · rw [hok] at hfail
    cases hfail

theorem after_remove_failed {h : Handle} (hfail : (memory.remove? h).isOk = false) :
    memory.after (.remove h) = memory := by
  rcases after_remove memory h with ⟨-, hafter⟩ | ⟨entry, he, -⟩
  · exact hafter
  · obtain ⟨store, hok, -⟩ := remove?_live he
    rw [hok] at hfail
    cases hfail

/-- What a memory is like after acts on an empty one. -/
structure Remembers (mode : IdentityMode) (acts : List Act) (memory : WorkingMemory) : Prop where
  /-- The handles that were given are one, two, three and so on, one for each insertion. -/
  issued : (empty mode).issued acts = List.range' 1 (acts.countP Act.isInsert)
  /-- A fact that was inserted got the next of them, under which the memory has what the acts since then
      leave: nothing once it was removed, and else the last value that it was given. -/
  lives : ∀ {before fact moment later}, acts = before ++ .insert fact moment :: later →
    ((empty mode).run before).nextHandle = before.countP Act.isInsert + 1 ∧
    memory.entry? (before.countP Act.isInsert + 1) =
      left (before.countP Act.isInsert + 1) ⟨fact, moment, 0⟩ later
  /-- Nothing else lives. -/
  inserted : ∀ {h entry}, memory.entry? h = some entry → ∃ before fact moment later,
    acts = before ++ .insert fact moment :: later ∧ h = before.countP Act.isInsert + 1
  /-- Nothing lives under a handle that was removed. -/
  gone : ∀ {before h later}, acts = before ++ .remove h :: later → h ≤ before.countP Act.isInsert →
    memory.entry? h = none
  /-- What lives under a handle lived ever since, with the same type. -/
  typed : ∀ {before later h entry}, acts = before ++ later → h < ((empty mode).run before).nextHandle →
    memory.entry? h = some entry → ∃ previous,
      WorkingMemory.entry? ((empty mode).run before) h = some previous ∧
      previous.fact.type = entry.fact.type
  /-- The generation is the number of changes since the insertion that have succeeded. -/
  generation : ∀ {before fact moment later entry}, acts = before ++ .insert fact moment :: later →
    memory.entry? (before.countP Act.isInsert + 1) = some entry → entry.generation =
      (((empty mode).run before).insert fact moment).replaced (before.countP Act.isInsert + 1) later
  /-- The listings have every live fact once, in the order of the handles. -/
  sorted : memory.toList.Pairwise fun a b => a.1 < b.1
  listed : ∀ h fact, (h, fact) ∈ memory.toList ↔ memory.fact? h = some fact
  ofType : ∀ type, memory.ofType type = memory.toList.filter fun a => a.2.type = type
  /-- In equality mode the first live fact that equals a given one is found. -/
  found : ∀ fact, memory.findEqual? fact = match mode with
    | .identity => none
    | .equality => (memory.toList.find? fun a => a.2 == fact).map Prod.fst
  /-- What fails says why, and changes nothing. -/
  replaceFails : ∀ h fact moment error, memory.replace? h fact moment = .error error ↔
    (memory.fact? h = none ∧ error = .unknownHandle h) ∨
    ∃ previous, memory.fact? h = some previous ∧ previous.type ≠ fact.type ∧
      error = .schema previous.type (.typeChange h fact.type)
  removeFails : ∀ h error, memory.remove? h = .error error ↔
    memory.fact? h = none ∧ error = .unknownHandle h
  replaceFailed : ∀ h fact moment, (memory.replace? h fact moment).isOk = false →
    memory.after (.replace h fact moment) = memory
  removeFailed : ∀ h, (memory.remove? h).isOk = false → memory.after (.remove h) = memory

/-- Whatever is done to an empty memory, it has what was inserted and not removed, each fact under its
    number and with its last value, and finds it by type and by value. Values may be looked up by their
    hashes, and a fact that holds something that is not a number equals none. -/
theorem keeps_what_lives (mode : IdentityMode) (acts : List Act) :
    Remembers mode acts ((empty mode).run acts) ∧
    (∀ (hasher : List Word → UInt64) (f g : Fact),
      (hasher f.digest == hasher g.digest && f == g) = (f == g)) ∧
    ∀ f g : Fact, f.holdsNaN = true → (f == g) = false := by
  have F : ((empty mode).run acts).Filed := (filed_empty mode).run acts
  have hmode : ((empty mode).run acts).mode = mode := mode_run (empty mode) acts
  refine ⟨?_, fun hasher => Fact.hashed_beq hasher, fun f g hf => Fact.beq_of_holdsNaN hf g⟩
  constructor
  case issued => exact (filed_empty mode).issued_run acts
  case lives =>
    rintro before fact moment later rfl
    exact ⟨nextHandle_empty_run mode before, entry?_inserted mode before later fact moment⟩
  case inserted => exact inserted_run
  case gone =>
    rintro before h later rfl hle
    have hgiven : h < ((empty mode).run before).nextHandle := by
      rw [nextHandle_empty_run]
      exact Nat.lt_succ_of_le hle
    have hremoved : (Act.remove h).removes h = true := beq_self_eq_true h
    rw [run_append, entry?_run hgiven]
    simp only [left_removed hremoved, Option.bind_fun_none]
  case typed =>
    rintro before later h entry rfl hlt he
    rw [run_append, entry?_run hlt] at he
    obtain ⟨previous, hprevious, hleft⟩ := Option.bind_eq_some_iff.1 he
    exact ⟨previous, hprevious, (left_eq_some hleft).2.1⟩
  case generation =>
    rintro before fact moment later entry rfl he
    rw [entry?_inserted] at he
    obtain ⟨hno, -, hgeneration⟩ := left_eq_some he
    have hnext := nextHandle_empty_run mode before
    have hlives : WorkingMemory.entry? (((empty mode).run before).insert fact moment)
        (before.countP Act.isInsert + 1) = some ⟨fact, moment, 0⟩ := by
      rw [entry?_insert, if_pos hnext]
    rw [replaced_eq hlives (hnext ▸ Nat.lt_succ_self _) hno, hgeneration, Nat.zero_add]
  case sorted => exact sorted_toList _
  case listed => exact fun h fact => mem_toList
  case ofType => exact F.ofType_eq
  case found =>
    intro fact
    cases mode with
    | identity => rw [findEqual?, hmode]
    | equality => exact F.findEqual?_eq hmode fact
  case replaceFails => exact fun h fact moment error => replace?_error
  case removeFails => exact fun h error => remove?_error
  case replaceFailed => exact fun h fact moment => after_replace_failed
  case removeFailed => exact fun h => after_remove_failed

/-- A fact of a type with one field. -/
def item (id : Int64) : Fact := ⟨"item", [("id", .integer id)]⟩

/-- The second fact is made equal to the first one, which cannot get another type and is removed then. -/
def twinActs : List Act :=
  [.insert (item 1) 10, .insert (item 2) 20, .replace 2 (item 1) 30,
    .replace 1 ⟨"note", [("id", .integer 1)]⟩ 40, .remove 1, .insert (item 2) 50]

/-- The second fact is found in place of the first one, and the third one gets a number of its own. -/
theorem keeps_what_lives_twinActs :
    Remembers .equality twinActs ((empty .equality).run twinActs) ∧
    (empty .equality).issued twinActs = [1, 2, 3] ∧
    WorkingMemory.entry? ((empty .equality).run twinActs) 1 = none ∧
    WorkingMemory.entry? ((empty .equality).run twinActs) 2 = some ⟨item 1, 30, 1⟩ ∧
    WorkingMemory.entry? ((empty .equality).run twinActs) 3 = some ⟨item 2, 50, 0⟩ ∧
    ((empty .equality).run twinActs).findEqual? (item 1) = some 2 := by
  obtain ⟨R, -, -⟩ := keeps_what_lives .equality twinActs
  have hlisted : ((empty .equality).run twinActs).toList = [(2, item 1), (3, item 2)] := by
    decide +kernel
  refine ⟨R, R.issued, ?_, ?_, ?_, ?_⟩
  · exact (@Remembers.lives _ _ _ R [] (item 1) 10 _ rfl).2
  · exact (@Remembers.lives _ _ _ R [_] (item 2) 20 _ rfl).2
  · exact (@Remembers.lives _ _ _ R [_, _, _, _, _] (item 2) 50 _ rfl).2
  · rw [R.found, hlisted]
    decide +kernel

end RuleNet.WorkingMemory
