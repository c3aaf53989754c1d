/-
  The agenda: matches that wait to fire, in groups, and the stack of groups that may fire.

  * A group's activations stand in order of salience, the highest first, and then of age.
  * Only the group on top of the focus stack fires; the main group stays at the bottom.
  * The group that fires is locked until the focus changes or the cycle ends.

  * `Agenda.create`, `cancel`, `clearGroup`, `popNext`: activations come and go.
  * `Agenda.pending`: all waiting activations, group by group in firing order.
-/
import RuleNet.Data.Keyed
import RuleNet.Fact.Binding
import RuleNet.Rule.Definition
import RuleNet.Settings

namespace RuleNet

/-! ## Activations -/

abbrev ActivationId := Nat

/-- What became of an activation. -/
inductive ActivationState where
  | pending
  | fired
  | cancelled
  deriving DecidableEq, Inhabited

def ActivationState.word : ActivationState → String
  | pending => "pending"
  | fired => "fired"
  | cancelled => "cancelled"

/-- The place of an activation in its group: the opposite of its salience, then its age. -/
abbrev Rank := Int × Int

/-- A match of a rule and its place on the agenda. -/
structure Activation where
  id : ActivationId
  /-- The rule, by its place among the rules. -/
  rule : Nat
  /-- The branch of the rule, and the token that matches it. -/
  terminal : Nat
  token : Nat
  salience : Int
  group : String
  state : ActivationState
  /-- The variables of the match when it was formed. -/
  binding : Binding
  rank : Rank
  deriving DecidableEq, Inhabited

/-- How many activations there were, by what became of them; `suppressed` ones never came to be. -/
structure AgendaCounts where
  created : Nat
  fired : Nat
  cancelled : Nat
  suppressed : Nat
  deriving DecidableEq, Inhabited

/-! ## The agenda -/

/-- The waiting activations of one group in firing order. -/
abbrev ConflictSet := Std.ExtTreeMap Rank ActivationId dictionary

structure Agenda where
  strategy : ConflictStrategy
  activations : Std.ExtTreeMap ActivationId Activation
  /-- The activation of each terminal and token. -/
  byToken : Std.ExtTreeMap (Nat × Nat) ActivationId dictionary
  /-- The groups that have waiting activations. -/
  groups : Std.ExtTreeMap String ConflictSet
  /-- The groups on the focus stack, the focused one first. -/
  stack : List String
  locked : Option String
  nextId : ActivationId
  counts : AgendaCounts

namespace Agenda

def empty (strategy : ConflictStrategy) : Agenda :=
  ⟨strategy, ∅, ∅, ∅, [mainGroup], none, 1, ⟨0, 0, 0, 0⟩⟩

/-- Where an activation of this salience and number stands in its group. -/
def rankOf (strategy : ConflictStrategy) (salience : Int) (id : ActivationId) : Rank :=
  match strategy with
  | .oldestFirst => (-salience, id)
  | .newestFirst => (-salience, -id)

/-- The waiting activations of a group. -/
def conflictSet (agenda : Agenda) (group : String) : ConflictSet := (agenda.groups[group]?).getD ∅

/-- Put a group's activations; a group without any goes. -/
def putGroup (agenda : Agenda) (group : String) (set : ConflictSet) : Agenda :=
  { agenda with
    groups := if set.isEmpty then agenda.groups.erase group else agenda.groups.insert group set }

/-- A new activation; its number is the `nextId` of before. -/
def create (agenda : Agenda) (rule terminal token : Nat) (salience : Int) (group : String)
    (binding : Binding) : Agenda :=
  let id := agenda.nextId
  let rank := rankOf agenda.strategy salience id
  { agenda with
    activations :=
      agenda.activations.insert id
        ⟨id, rule, terminal, token, salience, group, .pending, binding, rank⟩
    byToken := agenda.byToken.insert (terminal, token) id
    groups := agenda.groups.insert group ((agenda.conflictSet group).insert rank id)
    nextId := id + 1
    counts := { agenda.counts with created := agenda.counts.created + 1 } }

def get? (agenda : Agenda) (id : ActivationId) : Option Activation := agenda.activations[id]?

/-- Strike one activation off the table and the token index. -/
def strike (agenda : Agenda) (activation : Activation) : Agenda :=
  { agenda with
    activations := agenda.activations.erase activation.id
    byToken := agenda.byToken.erase (activation.terminal, activation.token) }

/-- Count one more cancelled activation. -/
def countCancelled (agenda : Agenda) : Agenda :=
  { agenda with counts := { agenda.counts with cancelled := agenda.counts.cancelled + 1 } }

/-- Cancel the waiting activation of a token, if it has one. -/
def cancel (agenda : Agenda) (terminal token : Nat) : Option Activation × Agenda :=
  match agenda.byToken[(terminal, token)]? with
  | none => (none, agenda)
  | some id => match agenda.get? id with
    | none => (none, { agenda with byToken := agenda.byToken.erase (terminal, token) })
    | some activation =>
      let set := agenda.conflictSet activation.group
      (some { activation with state := .cancelled },
        ((agenda.strike activation).putGroup activation.group
          (set.erase activation.rank)).countCancelled)

/-- Cancel every waiting activation of a group, in firing order. -/
def clearGroup (agenda : Agenda) (group : String) : List Activation × Agenda :=
  let cleared := (agenda.conflictSet group).values.filterMap agenda.get?
  (cleared.map fun activation => { activation with state := .cancelled },
    cleared.foldl (fun agenda activation => (agenda.strike activation).countCancelled)
      { agenda with groups := agenda.groups.erase group })

/-! ## Focus -/

/-- The group that may fire. -/
def focus (agenda : Agenda) : String := agenda.stack.headD mainGroup

/-- The focus stack from the bottom. -/
def focusStack (agenda : Agenda) : List String := agenda.stack.reverse

def isLocked (agenda : Agenda) (group : String) : Bool := agenda.locked == some group

def unlock (agenda : Agenda) : Agenda := { agenda with locked := none }

/-- Move the focus to a group, unless it is there. -/
def setFocus (agenda : Agenda) (group : String) : Agenda :=
  if agenda.focus = group then agenda
  else { agenda with stack := group :: agenda.stack, locked := none }

/-- Move the focus back from the last group; the bottom of the stack stays. -/
def popFocus (agenda : Agenda) : Option String × Agenda := match agenda.stack with
  | top :: next :: rest => (some top, { agenda with stack := next :: rest, locked := none })
  | _ => (none, agenda)

/-- Count an activation that was not allowed to come to be. -/
def recordSuppressed (agenda : Agenda) : Agenda :=
  { agenda with counts := { agenda.counts with suppressed := agenda.counts.suppressed + 1 } }

/-- Take the first activation of the focused group, and lock the group. -/
def popNext (agenda : Agenda) : Option (Activation × Agenda) := do
  let group := agenda.focus
  let set := agenda.conflictSet group
  let (rank, id) ← set.minEntry?
  let activation ← agenda.get? id
  let rest := (agenda.strike activation).putGroup group (set.erase rank)
  some ({ activation with state := .fired }, { rest with
    locked := some group
    counts := { rest.counts with fired := rest.counts.fired + 1 } })

/-! ## Views -/

/-- The waiting activations, group by group in order of the names, each in firing order. -/
def pending (agenda : Agenda) : List Activation :=
  agenda.groups.values.flatMap fun set => set.values.filterMap agenda.get?

def size (agenda : Agenda) : Nat := agenda.activations.size

end Agenda

end RuleNet
