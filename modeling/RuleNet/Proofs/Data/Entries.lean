/-
  Entries are known by what is found in them.

  * `Entries.ext`: two records in order of names that hold the same under every name are the same.
  * `Entries.find?_select`, `Entries.ordered_select`: some entries of a record, each with another
    value.
-/
import RuleNet.Proofs.Accumulator

namespace RuleNet.Entries

variable {α β : Type}

theorem find?_cons (name k : String) (v : α) (rest : Entries α) :
    find? name ((k, v) :: rest) = if k = name then some v else find? name rest := rfl

/-- Nothing is found under a name that is none of the record's. -/
theorem find?_eq_none {name : String} {entries : Entries α} (h : ∀ v, (name, v) ∉ entries) :
    entries.find? name = none := by
  induction entries with
  | nil => rfl
  | cons e rest ih =>
    obtain ⟨k, v⟩ := e
    rw [find?_cons, if_neg]
    · exact ih fun w hw => h w (List.mem_cons_of_mem _ hw)
    · rintro rfl
      exact h v List.mem_cons_self

/-- In a record in order, the rest holds nothing under the first name. -/
theorem find?_rest {k : String} {v : α} {rest : Entries α} (h : Ordered ((k, v) :: rest)) :
    rest.find? k = none := by
  refine find?_eq_none fun w hw => ?_
  have hlt := (List.pairwise_cons.1 h).1 _ hw
  rw [Std.ReflOrd.compare_self] at hlt
  cases hlt

/-- The entries of a record in order are what is found. -/
theorem mem_iff {entries : Entries α} (h : entries.Ordered) {name : String} {v : α} :
    (name, v) ∈ entries ↔ entries.find? name = some v := by
  induction entries with
  | nil => simp
  | cons e rest ih =>
    obtain ⟨k, w⟩ := e
    rw [List.mem_cons, ih (List.pairwise_cons.1 h).2, find?_cons]
    by_cases hk : k = name
    · subst hk
      rw [if_pos rfl, find?_rest h]
      simp [eq_comm]
    · rw [if_neg hk]
      refine or_iff_right fun heq => hk ?_
      cases heq
      rfl

/-- Records in order that hold the same are the same. -/
theorem ext {xs ys : Entries α} (hx : xs.Ordered) (hy : ys.Ordered)
    (h : ∀ name, xs.find? name = ys.find? name) : xs = ys := by
  refine eq_of_ascending (fun a b hab hba => ?_) hx hy fun e => ?_
  · have hself := Std.TransCmp.lt_trans hab hba
    rw [Std.ReflOrd.compare_self] at hself
    cases hself
  · obtain ⟨k, v⟩ := e
    rw [mem_iff hx, mem_iff hy, h]

/-- Some entries of a record, each with another value. -/
def select (f : String → α → Option β) (entries : Entries α) : Entries β :=
  entries.filterMap fun e => (f e.1 e.2).map fun v => (e.1, v)

theorem mem_select {f : String → α → Option β} {entries : Entries α} {e : String × β}
    (h : e ∈ entries.select f) : ∃ v, (e.1, v) ∈ entries := by
  obtain ⟨e', he', heq⟩ := List.mem_filterMap.1 h
  obtain ⟨v, -, rfl⟩ := Option.map_eq_some_iff.1 heq
  exact ⟨e'.2, he'⟩

theorem ordered_select (f : String → α → Option β) {entries : Entries α} (h : entries.Ordered) :
    (entries.select f).Ordered := by
  induction entries with
  | nil => exact List.Pairwise.nil
  | cons e rest ih =>
    obtain ⟨hfirst, hrest⟩ := List.pairwise_cons.1 h
    rw [select, List.filterMap_cons]
    cases hf : f e.1 e.2 with
    | none => exact ih hrest
    | some v =>
      refine List.pairwise_cons.2 ⟨fun e' he' => ?_, ih hrest⟩
      obtain ⟨w, hw⟩ := mem_select he'
      exact hfirst _ hw

theorem find?_select (f : String → α → Option β) {entries : Entries α} (h : entries.Ordered)
    (name : String) : (entries.select f).find? name = (entries.find? name).bind (f name) := by
  induction entries with
  | nil => rfl
  | cons e rest ih =>
    obtain ⟨k, v⟩ := e
    have hrest := (List.pairwise_cons.1 h).2
    have hstep : find? name (select f ((k, v) :: rest)) =
        ((f k v).bind fun w => if k = name then some w else none).or
          (find? name (select f rest)) := by
      rw [select, List.filterMap_cons]
      cases f k v with
      | none => rfl
      | some w =>
        show (if k = name then some w else find? name (select f rest)) =
          (if k = name then some w else none).or _
        split <;> rfl
    rw [hstep, ih hrest, find?_cons]
    by_cases hname : k = name
    · subst hname
      rw [if_pos rfl, find?_rest h]
      simp
    · rw [if_neg hname]
      cases f k v <;> simp [hname]

end RuleNet.Entries
