/-
  A search gives the rows of a plan one by one, each of them once.

  A row names the facts of some patterns only. Beside it stand here the facts of all patterns, in the
  order in which they were chosen.

  * `QueryView.Leads`: how steps lead from one row to another, choice by choice.
  * `QueryView.choices`: all rows that extend a row by steps, with their choices.
  * `QueryView.mem_choices`, `QueryView.pairwise_choices`: every choice that leads to a row is made
    once, in ascending order.
  * `Cursor.rows`: the rows that are left to a search.
  * `Cursor.rows_turn`: a turn leaves them as they are, but for the row that it finds.
  * `Cursor.Answers`, `Cursor.answers_next`: a call ends after as many turns as are left at most.
  * `Cursor.next_after`: each call gives the row whose turn it is, and nothing after the last one.
  * `Cursor.enumerates`: calls on a plan enumerate its rows, one for each choice of facts.
-/
import RuleNet.Proofs.Network.Compile
import RuleNet.Proofs.Query.Rows
import RuleNet.Session.Operations

namespace RuleNet.QueryView

variable {v : QueryView}

/-- Steps lead from a row to another one, a fact being chosen at each step that binds facts. -/
inductive Leads (v : QueryView) : List PlanStep → Row → List Handle → Row → Prop
  | done (row : Row) : Leads v [] row [] row
  | each {source : Source} {factVar : Option String} {fieldVars : List (String × String)}
    {rest : List PlanStep} {row extended last : Row} {h : Handle} {chosen : List Handle}
    (member : h ∈ v.members source row)
    (fits : v.extend? source factVar fieldVars row h = some extended)
    (onward : Leads v rest extended chosen last) :
    Leads v (.each source factVar fieldVars :: rest) row (h :: chosen) last
  | pass {step : PlanStep} {rest : List PlanStep} {row passed last : Row} {chosen : List Handle}
    (passes : v.pass? row step = some passed) (onward : Leads v rest passed chosen last) :
    Leads v (step :: rest) row chosen last

/-- All rows that extend a row by steps, each with the facts that were chosen for it. -/
def choices (v : QueryView) : List PlanStep → Row → List (List Handle × Row)
  | [], row => [([], row)]
  | .each source factVar fieldVars :: rest, row =>
    (v.members source row).flatMap fun h =>
      match v.extend? source factVar fieldVars row h with
      | some extended => (v.choices rest extended).map fun choice => (h :: choice.1, choice.2)
      | none => []
  | step :: rest, row => match v.pass? row step with
    | some passed => v.choices rest passed
    | none => []

/-- What follows a step that chooses no fact. -/
theorem choices_pass {step : PlanStep} (hstep : ∀ source factVar fieldVars,
    step ≠ .each source factVar fieldVars) (rest : List PlanStep) (row : Row) :
    v.choices (step :: rest) row = (v.pass? row step).elim [] (v.choices rest) := by
  cases step with
  | each source factVar fieldVars => exact absurd rfl (hstep source factVar fieldVars)
  | absent source | present source | accumulate source fold result having | predicate p =>
    simp only [choices]
    split
    · next h => rw [h, Option.elim_some]
    · next h => rw [h, Option.elim_none]

/-- A step chooses a fact, or it does not. -/
theorem each_or_pass (step : PlanStep) :
    (∃ source factVar fieldVars, step = .each source factVar fieldVars) ∨
      ∀ source factVar fieldVars, step ≠ .each source factVar fieldVars := by
  cases step with
  | each source factVar fieldVars => exact Or.inl ⟨source, factVar, fieldVars, rfl⟩
  | absent | present | accumulate | predicate => exact Or.inr fun _ _ _ h => by cases h

/-- The rows are those of the choices. -/
theorem rows_eq_choices (steps : List PlanStep) (row : Row) :
    v.rows steps row = (v.choices steps row).map Prod.snd := by
  induction steps generalizing row with
  | nil => rfl
  | cons step rest ih =>
    rcases each_or_pass step with ⟨source, factVar, fieldVars, rfl⟩ | hpass
    · rw [rows, choices, List.map_flatMap]
      refine congrArg (List.flatMap · _) (funext fun h => ?_)
      cases v.extend? source factVar fieldVars row h with
      | none => rfl
      | some extended =>
        dsimp only
        rw [ih, List.map_map]
        rfl
    · rw [rows_cons, rows_pass hpass, choices_pass hpass]
      cases v.pass? row step with
      | none => rfl
      | some passed => rw [Option.toList_some, List.flatMap_singleton, ih, Option.elim_some]

/-- What steps lead to is what the choices give. -/
theorem mem_choices {steps : List PlanStep} {row last : Row} {chosen : List Handle} :
    (chosen, last) ∈ v.choices steps row ↔ v.Leads steps row chosen last := by
  constructor
  · intro h
    induction steps generalizing row chosen with
    | nil =>
      rw [choices, List.mem_singleton] at h
      cases h
      exact .done _
    | cons step rest ih =>
      rcases each_or_pass step with ⟨source, factVar, fieldVars, rfl⟩ | hpass
      · rw [choices] at h
        obtain ⟨i, hi, h⟩ := List.mem_flatMap.1 h
        split at h
        · next extended hextended =>
          obtain ⟨⟨others, final⟩, hrest, heq⟩ := List.mem_map.1 h
          cases heq
          exact .each hi hextended (ih hrest)
        · cases h
      · rw [choices_pass hpass] at h
        cases hpassed : v.pass? row step with
        | none =>
          rw [hpassed] at h
          cases h
        | some passed =>
          rw [hpassed] at h
          exact .pass hpassed (ih h)
  · intro h
    induction h with
    | done row => exact List.mem_singleton_self _
    | each hi hextended _ ih =>
      rw [choices]
      refine List.mem_flatMap.2 ⟨_, hi, ?_⟩
      rw [hextended]
      exact List.mem_map.2 ⟨_, ih, rfl⟩
    | @pass step rest row passed last chosen hpassed _ ih =>
      have hpass : ∀ source factVar fieldVars, step ≠ .each source factVar fieldVars := by
        rintro source factVar fieldVars rfl
        cases hpassed
      rw [choices_pass hpass, hpassed]
      exact ih

/-- The choices come in ascending order, so that none is made twice. -/
theorem pairwise_choices (steps : List PlanStep) (row : Row) :
    ((v.choices steps row).map Prod.fst).Pairwise (· < ·) := by
  induction steps generalizing row with
  | nil => exact List.pairwise_singleton _ _
  | cons step rest ih =>
    rcases each_or_pass step with ⟨source, factVar, fieldVars, rfl⟩ | hpass
    · rw [choices, List.map_flatMap, List.pairwise_flatMap]
      constructor
      · intro h _
        split
        · next extended _ =>
          rw [List.map_map]
          refine List.pairwise_map.2 ((List.pairwise_map.1 (ih extended)).imp fun {a b} hab => ?_)
          exact List.cons_lt_cons_iff.2 (Or.inr ⟨rfl, hab⟩)
        · exact List.Pairwise.nil
      · refine (pairwise_members source row).imp fun {i j} hij a ha b hb => ?_
        -- choices that begin with different facts are in the order of these
        have hhead : ∀ {h : Handle} {chosen : List Handle},
            chosen ∈ List.map Prod.fst (match v.extend? source factVar fieldVars row h with
              | some extended => (v.choices rest extended).map fun choice =>
                (h :: choice.1, choice.2)
              | none => []) → ∃ others, chosen = h :: others := fun {h chosen} hc => by
          split at hc
          · obtain ⟨choice, hchoice, rfl⟩ := List.mem_map.1 hc
            obtain ⟨found, -, rfl⟩ := List.mem_map.1 hchoice
            exact ⟨_, rfl⟩
          · cases hc
        obtain ⟨as, rfl⟩ := hhead ha
        obtain ⟨bs, rfl⟩ := hhead hb
        exact List.cons_lt_cons_iff.2 (Or.inl hij)
    · rw [choices_pass hpass]
      cases v.pass? row step with
      | none => exact List.Pairwise.nil
      | some passed => exact ih passed

end RuleNet.QueryView

namespace RuleNet

/-! ## What is left -/

/-- The rows that the facts left at a step lead to. -/
def Frame.rows (v : QueryView) (frame : Frame) : List Row :=
  frame.left.flatMap fun h =>
    (v.extend? frame.source frame.factVar frame.fieldVars frame.row h).elim [] (v.rows frame.rest)

/-- The rows that are left to a search: those of the steps with facts left, the last step first, and
    those of the branches not yet begun. -/
def Cursor.rows (v : QueryView) (initial : Row) (cursor : Cursor) : List Row :=
  cursor.frames.flatMap (Frame.rows v) ++ cursor.branches.flatMap fun steps => v.rows steps initial

/-- The rows that were left before a turn, by what has come of it. -/
def Turn.rows (v : QueryView) (initial : Row) : Turn → List Row
  | .found row cursor => row :: cursor.rows v initial
  | .onward cursor => cursor.rows v initial
  | .ended => []

namespace Cursor

variable {v : QueryView} {initial : Row}

theorem rows_start (plan : Plan) (params : List Value) :
    (start plan).rows v (QueryView.initialRow plan params) = v.allRows plan params := rfl

/-- The rows that a row leads to come before those that were left. -/
theorem rows_follow (cursor : Cursor) (steps : List PlanStep) (row : Row) :
    (cursor.follow (v.descend steps row)).rows v initial =
      v.rows steps row ++ cursor.rows v initial := by
  induction steps generalizing row with
  | nil => rfl
  | cons step rest ih =>
    cases step with
    | each source factVar fieldVars =>
      simp only [QueryView.descend, follow, Turn.rows, rows, Frame.rows, List.flatMap_cons,
        QueryView.rows, List.append_assoc]
      refine congrArg (· ++ _) (List.flatMap_congr fun h _ => ?_)
      cases v.extend? source factVar fieldVars row h <;> rfl
    | absent | present | accumulate | predicate =>
      simp only [QueryView.descend, QueryView.rows]
      split
      · next passed hpassed => exact ih passed
      · rfl

/-- A turn skips no row and finds none twice. -/
theorem rows_turn (cursor : Cursor) :
    cursor.rows v initial = (cursor.turn v initial).rows v initial := by
  obtain ⟨frames, branches⟩ := cursor
  cases frames with
  | nil =>
    cases branches with
    | nil => rfl
    | cons steps branches =>
      simp only [turn, rows_follow, rows, List.flatMap_nil, List.flatMap_cons, List.nil_append]
  | cons frame frames =>
    obtain ⟨source, factVar, fieldVars, rest, row, left⟩ := frame
    cases left with
    | nil => rfl
    | cons h left =>
      cases hextended : v.extend? source factVar fieldVars row h with
      | none =>
        simp only [turn, hextended, Turn.rows, rows, Frame.rows, List.flatMap_cons,
          Option.elim_none, List.nil_append]
      | some extended =>
        simp only [turn, hextended, rows_follow, rows, Frame.rows, List.flatMap_cons,
          Option.elim_some, List.append_assoc]

/-! ## Calls -/

/-- A call on a search makes a number of turns until a row is found or the search has ended. -/
inductive Answers (v : QueryView) (initial : Row) :
    Cursor → Nat → Option Row → Cursor → Prop
  | found {cursor after : Cursor} {row : Row} (h : cursor.turn v initial = .found row after) :
    Answers v initial cursor 1 (some row) after
  | ended {cursor : Cursor} (h : cursor.turn v initial = .ended) :
    Answers v initial cursor 1 none cursor
  | onward {cursor mid after : Cursor} {turns : Nat} {answer : Option Row}
    (h : cursor.turn v initial = .onward mid) (rest : Answers v initial mid turns answer after) :
    Answers v initial cursor (turns + 1) answer after

/-- A call ends, with at most one turn more than are left. -/
theorem answers_next (cursor : Cursor) : ∃ turns ≤ cursor.work v initial + 1,
    cursor.Answers v initial turns (cursor.next v initial).1 (cursor.next v initial).2 := by
  induction hwork : cursor.work v initial using Nat.strongRecOn generalizing cursor with
  | ind work ih =>
    rw [next]
    split
    · next row after h => exact ⟨1, Nat.le_add_left 1 work, .found h⟩
    · next after h =>
      have hless := work_lt_of_onward h
      obtain ⟨turns, hturns, hrest⟩ := ih _ (hwork ▸ hless) after rfl
      exact ⟨turns + 1, by omega, .onward h hrest⟩
    · next h => exact ⟨1, Nat.le_add_left 1 work, .ended h⟩

/-- A call finds the first of the rows that are left, and leaves the others. -/
theorem Answers.rows {cursor after : Cursor} {turns : Nat} {answer : Option Row}
    (h : cursor.Answers v initial turns answer after) :
    answer = (cursor.rows v initial).head? ∧
      after.rows v initial = (cursor.rows v initial).tail := by
  induction h with
  | found h =>
    rw [rows_turn, h]
    exact ⟨rfl, rfl⟩
  | @ended cursor h =>
    have hnone : cursor.rows v initial = [] := by
      rw [rows_turn, h]
      rfl
    rw [hnone]
    exact ⟨rfl, rfl⟩
  | @onward cursor mid after turns answer h _ ih =>
    rw [rows_turn cursor, h]
    exact ih

theorem rows_next (cursor : Cursor) :
    (cursor.next v initial).1 = (cursor.rows v initial).head? ∧
      (cursor.next v initial).2.rows v initial = (cursor.rows v initial).tail := by
  obtain ⟨turns, -, h⟩ := @answers_next v initial cursor
  exact h.rows

/-- The place of a search after some calls. -/
def after (v : QueryView) (initial : Row) : Nat → Cursor → Cursor
  | 0, cursor => cursor
  | calls + 1, cursor => after v initial calls (cursor.next v initial).2

theorem rows_after (calls : Nat) (cursor : Cursor) :
    (cursor.after v initial calls).rows v initial = (cursor.rows v initial).drop calls := by
  induction calls generalizing cursor with
  | zero => rfl
  | succ calls ih => rw [after, ih, cursor.rows_next.2, List.drop_tail]

/-- After some calls, the next one finds the row whose turn it is, or nothing if there is none. -/
theorem next_after (calls : Nat) (cursor : Cursor) :
    ((cursor.after v initial calls).next v initial).1 = (cursor.rows v initial)[calls]? := by
  rw [(rows_next _).1, rows_after, List.head?_drop]

/-- The rows of the first calls. -/
theorem take_eq (n : Nat) (cursor : Cursor) :
    take v initial n cursor = (cursor.rows v initial).take n := by
  induction n generalizing cursor with
  | zero => rfl
  | succ n ih =>
    obtain ⟨hfirst, hrest⟩ := @rows_next v initial cursor
    rw [take]
    cases hrows : cursor.rows v initial with
    | nil =>
      rw [hrows] at hfirst
      split
      · next row after h => rw [h] at hfirst; cases hfirst
      · rfl
    | cons row others =>
      rw [hrows] at hfirst hrest
      split
      · next found after h =>
        rw [h] at hfirst hrest
        cases hfirst
        rw [ih, hrest]
        rfl
      · next after h => rw [h] at hfirst; cases hfirst

/-! ## Plans -/

/-- The calls on a search through a plan give its rows in their order, one by one, and then nothing
    however often they are made; each of them ends. The rows are those that the steps of a branch lead
    to, branch by branch, one for each choice of facts that leads to one, and in a branch the choices
    come in ascending order. -/
theorem enumerates (v : QueryView) (plan : Plan) (params : List Value) :
    (∀ calls, (((start plan).after v (QueryView.initialRow plan params) calls).next v
        (QueryView.initialRow plan params)).1 = (v.allRows plan params)[calls]?) ∧
    (∀ n, take v (QueryView.initialRow plan params) n (start plan) =
        (v.allRows plan params).take n) ∧
    (∀ (initial : Row) (cursor : Cursor), ∃ turns ≤ cursor.work v initial + 1,
      cursor.Answers v initial turns (cursor.next v initial).1 (cursor.next v initial).2) ∧
    v.allRows plan params = plan.branches.flatMap (fun steps =>
      (v.choices steps (QueryView.initialRow plan params)).map Prod.snd) ∧
    ∀ (steps : List PlanStep) (row : Row),
      ((v.choices steps row).map Prod.fst).Pairwise (· < ·) ∧
      ∀ chosen last, (chosen, last) ∈ v.choices steps row ↔ v.Leads steps row chosen last := by
  refine ⟨fun calls => ?_, fun n => ?_, fun initial cursor => answers_next cursor, ?_,
    fun steps row => ⟨QueryView.pairwise_choices steps row, fun _ _ => QueryView.mem_choices⟩⟩
  · rw [next_after, rows_start]
  · rw [take_eq, rows_start]
  · exact List.flatMap_congr fun steps _ => QueryView.rows_eq_choices steps _

/-- Parties are seated at tables that are large enough. -/
def seatings : Declarations where
  types := [⟨"party", [("guests", .integer)], .fact, none, none⟩,
    ⟨"table", [("seats", .integer)], .fact, none, none⟩]
  rules := []
  queries := [⟨"seatings", [], .all [.pattern ⟨"party", some "p", [], [("n", "guests")], none⟩,
    .pattern ⟨"table", some "t", [.compare "seats" .greaterOrEqual (.var "n")], [], none⟩]⟩]

/-- Parties of two and of five look for a table, and there are three. -/
def seatingsRun (base : RuleBase) : Session :=
  let facts : List Fact := [⟨"party", [("guests", .integer 2)]⟩, ⟨"party", [("guests", .integer 5)]⟩,
    ⟨"table", [("seats", .integer 4)]⟩, ⟨"table", [("seats", .integer 1)]⟩,
    ⟨"table", [("seats", .integer 6)]⟩]
  facts.foldl (fun s fact => (s.insert fact).2) (.start base .standard 0)

/-- The smaller party can have one of two tables and the larger party one of them; the fourth call gives
    nothing, and no more does the fifth. -/
theorem enumerates_seatingsRun : ∃ base plan, seatings.build = .ok base ∧
    (seatingsRun base).plan "seatings" [] = .ok plan ∧
    let v := (seatingsRun base).queryView
    let initial := QueryView.initialRow plan []
    take v initial 3 (start plan) = [⟨[("p", 1), ("t", 3)], [("n", .integer 2)]⟩,
      ⟨[("p", 1), ("t", 5)], [("n", .integer 2)]⟩, ⟨[("p", 2), ("t", 5)], [("n", .integer 5)]⟩] ∧
    (((start plan).after v initial 3).next v initial).1 = none ∧
    (((start plan).after v initial 4).next v initial).1 = none := by
  obtain ⟨base, hb, hrun⟩ := Declarations.build_of_passes seatings (fun base =>
    decide ((seatingsRun base).query "seatings" [] = .ok [⟨[("p", 1), ("t", 3)], [("n", .integer 2)]⟩,
      ⟨[("p", 1), ("t", 5)], [("n", .integer 2)]⟩, ⟨[("p", 2), ("t", 5)], [("n", .integer 5)]⟩]))
    (by decide +kernel)
  have hquery := of_decide_eq_true hrun
  unfold Session.query at hquery
  cases hplan : (seatingsRun base).plan "seatings" [] with
  | error e =>
    rw [hplan] at hquery
    cases hquery
  | ok plan =>
    rw [hplan] at hquery
    have hrows := Except.ok.inj hquery
    obtain ⟨hcalls, htake, -⟩ := enumerates (seatingsRun base).queryView plan []
    refine ⟨base, plan, hb, hplan, ?_, ?_, ?_⟩
    · rw [htake 3, hrows]
      rfl
    · rw [hcalls 3, hrows]
      rfl
    · rw [hcalls 4, hrows]
      rfl

end Cursor

end RuleNet
