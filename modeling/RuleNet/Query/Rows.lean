/-
  Rows: the answers of a query plan, found by walking its steps depth first.

  * `QueryView`: what a query reads of a session. Facts that are overdue, or too old for a window,
    are passed over even if they are still there.
  * `QueryView.rows`: all rows that extend a row, in order.
  * `Cursor`: the place of a search for rows; `Cursor.turn` chooses one fact, or begins a branch.
  * `Cursor.next`: the same rows one at a time, each call going on where the last row was found.
-/
import RuleNet.Matching.Memory
import RuleNet.Query.Plan
import RuleNet.Time.Clock

namespace RuleNet

/-- What a query reads of a session. -/
structure QueryView where
  net : Network
  matching : Matching
  store : WorkingMemory
  expiry : ExpirySchedule
  now : Moment

namespace QueryView

/-! ## Steps -/

/-- What references stand for in a row. -/
def refer (v : QueryView) (row : Row) : View Reference where
  value
    | .value name => (row.values.find? name).getD .null
    | .field name field => match row.facts.find? name with
      | some h => v.store.valueOf h field
      | none => .null
    | .fact _ => .null
  moment
    | .fact name => (row.facts.find? name).bind v.store.moment?
    | _ => none

/-- Whether a member of a memory counts at this time: it is not overdue, and not too old for the
    memory's time window. -/
def isCurrent (v : QueryView) (a : AlphaId) (h : Handle) : Bool :=
  !v.expiry.isExpired h v.now &&
    match (v.net.alpha? a).bind AlphaNode.window with
    | some (.time length) => (v.store.moment? h).any fun moment => length.covers moment v.now
    | _ => true

/-- The facts that a source offers a row. -/
def members (v : QueryView) (source : Source) (row : Row) : List Handle :=
  let offered := match source.lookUp with
    | some (field, reference) =>
      (v.matching.lookUp source.alpha field ((v.refer row).value reference)).toList
    | none => (v.matching.alpha source.alpha).facts.toList
  offered.filter (v.isCurrent source.alpha)

/-- Whether a live fact passes a source's tests for a row. -/
def passes (v : QueryView) (source : Source) (row : Row) (h : Handle) : Bool :=
  match v.store.entry? h with
  | some entry => Test.allHold (v.refer row) entry.fact entry.moment source.tests
  | none => false

/-- The facts of a source that go with a row. -/
def partners (v : QueryView) (source : Source) (row : Row) : List Handle :=
  (v.members source row).filter (v.passes source row)

/-- The row with what a step binds of a fact, if the fact goes with the row. -/
def extend? (v : QueryView) (source : Source) (factVar : Option String)
    (fieldVars : List (String × String)) (row : Row) (h : Handle) : Option Row := do
  guard (v.passes source row h)
  let fact ← v.store.fact? h
  let facts := match factVar with
    | some name => row.facts.insert name h
    | none => row.facts
  let values := fieldVars.foldl (fun (values : Entries Value) var =>
    values.insert var.1 (fact.value var.2)) row.values
  some ⟨facts, values⟩

/-- The folded value of the facts that go with a row, if it is defined and meets the condition. -/
def folded? (v : QueryView) (source : Source) (fold : Fold)
    (having : Option (Operator × TestOperand Reference)) (row : Row) : Option Value :=
  let acc := Accumulator.ofList fold ((v.partners source row).map fun h =>
    (h, match fold.field? with
      | some field => v.store.valueOf h field
      | none => .null))
  acc.result?.filter fun value => match having with
    | some (operator, operand) => operator.apply value (operand.resolve (v.refer row))
    | none => true

/-- What becomes of a row at a step that does not choose a fact: it goes on, perhaps with one more
    value, or it ends. -/
def pass? (v : QueryView) (row : Row) : PlanStep → Option Row
  | .each _ _ _ => none
  | .absent source => if (v.partners source row).isEmpty then some row else none
  | .present source => if (v.partners source row).isEmpty then none else some row
  | .accumulate source fold result having =>
    (v.folded? source fold having row).map fun value =>
      { row with values := row.values.insert result value }
  | .predicate p => if p.holds row.toBinding then some row else none

/-! ## All rows -/

/-- All rows that extend a row by steps, in order of the facts chosen. -/
def rows (v : QueryView) : List PlanStep → Row → List Row
  | [], row => [row]
  | .each source factVar fieldVars :: rest, row =>
    (v.members source row).flatMap fun h =>
      match v.extend? source factVar fieldVars row h with
      | some extended => v.rows rest extended
      | none => []
  | step :: rest, row => match v.pass? row step with
    | some passed => v.rows rest passed
    | none => []

/-- The row that binds a plan's parameters. -/
def initialRow (plan : Plan) (params : List Value) : Row :=
  ⟨[], Entries.ofList (plan.parameters.zip params)⟩

/-- All rows of a plan, branch by branch. -/
def allRows (v : QueryView) (plan : Plan) (params : List Value) : List Row :=
  plan.branches.flatMap fun steps => v.rows steps (initialRow plan params)

end QueryView

/-! ## One row at a time -/

/-- A step at which facts are left to choose, and the steps after it. -/
structure Frame where
  source : Source
  factVar : Option String
  fieldVars : List (String × String)
  rest : List PlanStep
  row : Row
  left : List Handle

/-- How far a row gets while no fact has to be chosen: to the end, to a choice, or nowhere. -/
inductive Descent where
  | found (row : Row)
  | choice (frame : Frame)
  | dead

/-- The place of a search: the steps with facts left, the last one first, and the branches not yet
    begun. -/
structure Cursor where
  frames : List Frame
  branches : List (List PlanStep)

/-- What comes of one turn of a search. -/
inductive Turn where
  | found (row : Row) (cursor : Cursor)
  | onward (cursor : Cursor)
  | ended

/-- Let a row take the steps that choose no fact, up to the first that does. -/
def QueryView.descend (v : QueryView) : List PlanStep → Row → Descent
  | [], row => .found row
  | .each source factVar fieldVars :: rest, row =>
    .choice ⟨source, factVar, fieldVars, rest, row, v.members source row⟩
  | step :: rest, row => match v.pass? row step with
    | some passed => v.descend rest passed
    | none => .dead

namespace Cursor

/-- Before the first row of a plan. -/
def start (plan : Plan) : Cursor := ⟨[], plan.branches⟩

/-- Go on from where a row has got. -/
def follow (cursor : Cursor) : Descent → Turn
  | .found row => .found row cursor
  | .choice frame => .onward { cursor with frames := frame :: cursor.frames }
  | .dead => .onward cursor

/-- Choose the next fact at the last step that has one left; begin the next branch if there is no
    such step. -/
def turn (v : QueryView) (initial : Row) (cursor : Cursor) : Turn :=
  match cursor.frames with
  | [] => match cursor.branches with
    | [] => .ended
    | steps :: branches => follow ⟨[], branches⟩ (v.descend steps initial)
  | frame :: frames => match frame.left with
    | [] => .onward ⟨frames, cursor.branches⟩
    | h :: left =>
      let cursor : Cursor := ⟨{ frame with left } :: frames, cursor.branches⟩
      match v.extend? frame.source frame.factVar frame.fieldVars frame.row h with
      | some extended => cursor.follow (v.descend frame.rest extended)
      | none => .onward cursor

end Cursor

/-! ### The length of a search -/

namespace QueryView

/-- The number of turns by which a search goes through all that extends a row by steps. -/
def work (v : QueryView) : List PlanStep → Row → Nat
  | [], _ => 0
  | .each source factVar fieldVars :: rest, row =>
    (v.members source row).foldr (fun h turns =>
      (v.extend? source factVar fieldVars row h).elim 0 (v.work rest) + turns + 1) 1
  | step :: rest, row => (v.pass? row step).elim 0 (v.work rest)

end QueryView

/-- The number of turns that a step with facts left takes. -/
def Frame.work (v : QueryView) (frame : Frame) : Nat :=
  frame.left.foldr (fun h turns =>
    (v.extend? frame.source frame.factVar frame.fieldVars frame.row h).elim 0
      (v.work frame.rest) + turns + 1) 1

/-- The number of turns that are left to a search, but for the one that ends it. -/
def Cursor.work (v : QueryView) (initial : Row) (cursor : Cursor) : Nat :=
  cursor.frames.foldr (fun frame turns => frame.work v + turns)
    (cursor.branches.foldr (fun steps turns => v.work steps initial + turns + 1) 0)

/-- The number of turns that are left after a turn. -/
def Turn.work (v : QueryView) (initial : Row) : Turn → Nat
  | .found _ cursor | .onward cursor => cursor.work v initial
  | .ended => 0

namespace Cursor

variable {v : QueryView} {initial : Row}

theorem work_follow (cursor : Cursor) (steps : List PlanStep) (row : Row) :
    (cursor.follow (v.descend steps row)).work v initial =
      v.work steps row + cursor.work v initial := by
  induction steps generalizing row with
  | nil => simp [QueryView.descend, follow, Turn.work, QueryView.work]
  | cons step rest ih =>
    cases step with
    | each source factVar fieldVars =>
      simp [QueryView.descend, follow, Turn.work, QueryView.work, work, Frame.work, Nat.add_assoc]
    | absent _ | present _ | accumulate _ _ _ _ | predicate _ =>
      simp only [QueryView.descend, QueryView.work]
      split
      · next passed hpassed => rw [hpassed, ih, Option.elim_some]
      · next hdead => simp [hdead, follow, Turn.work]

/-- Every turn is one less to make, but for the last. -/
theorem work_turn (cursor : Cursor) : cursor.turn v initial = .ended ∧ cursor.work v initial = 0 ∨
    cursor.work v initial = (cursor.turn v initial).work v initial + 1 := by
  obtain ⟨frames, branches⟩ := cursor
  cases frames with
  | nil =>
    cases branches with
    | nil => exact Or.inl ⟨rfl, rfl⟩
    | cons steps branches =>
      refine Or.inr ?_
      simp only [turn, work_follow, work, List.foldr_nil, List.foldr_cons]
  | cons frame frames =>
    refine Or.inr ?_
    obtain ⟨source, factVar, fieldVars, rest, row, left⟩ := frame
    cases left with
    | nil =>
      simp only [turn, Turn.work, work, Frame.work, List.foldr_nil, List.foldr_cons]
      omega
    | cons h left =>
      cases hextended : v.extend? source factVar fieldVars row h with
      | none =>
        simp only [turn, hextended, Turn.work, work, Frame.work, List.foldr_cons, Option.elim_none]
        omega
      | some extended =>
        simp only [turn, hextended, work_follow, work, Frame.work, List.foldr_cons,
          Option.elim_some]
        omega

theorem work_lt_of_onward {cursor after : Cursor} (h : cursor.turn v initial = .onward after) :
    after.work v initial < cursor.work v initial := by
  rcases cursor.work_turn with ⟨hended, -⟩ | hless
  · rw [h] at hended
    cases hended
  · rw [hless, h]
    exact Nat.lt_succ_self _

/-! ### Rows -/

/-- The next row if there is one, and the place after it. -/
def next (v : QueryView) (initial : Row) (cursor : Cursor) : Option Row × Cursor :=
  match _h : cursor.turn v initial with
  | .found row after => (some row, after)
  | .onward after => after.next v initial
  | .ended => (none, cursor)
termination_by cursor.work v initial
decreasing_by exact work_lt_of_onward _h

/-- The next rows, at most `n`. -/
def take (v : QueryView) (initial : Row) : Nat → Cursor → List Row
  | 0, _ => []
  | n + 1, cursor => match cursor.next v initial with
    | (some row, cursor) => row :: take v initial n cursor
    | (none, _) => []

end Cursor

end RuleNet
