/-
  Conditions are normalized: the work ends, and what comes out means what went in.

  The absence of alternatives is worked on as the sequence of their absences, a tree that may be
  larger than the one it replaces. The work still ends, as a condition weighs more than what it
  asks for.

  * `Condition.Task`, `Condition.Task.body`: what may be asked of a condition, and how the answer is
    put together from the answers to other tasks.
  * `Condition.Task.eq_result`: the equations have one solution, the alternatives that are computed.
  * `Condition.normalize_meaning`: the branches of a condition, at most `maxBranches` of them, mean
    together what it means.
-/
import RuleNet.Proofs.Condition.Branches

namespace RuleNet

namespace Condition

/-! ## Tasks -/

/-- What is asked of a condition: its alternatives, those of its absence or of its presence. -/
inductive Task where
  | branches (c : Condition)
  | absence (c : Condition)
  | presence (c : Condition)

namespace Task

/-- The alternatives that are computed for a task. -/
def result : Task → Except Defect Branches
  | branches c => c.branches
  | absence c => c.absentBranches
  | presence c => c.presentBranches

/-- Alternatives of tasks in sequence. -/
def inSequence (ask : Task → Except Defect Branches) (tasks : List Task) :
    Except Defect Branches :=
  tasks.foldlM (fun before task => do before.product (← ask task)) [[]]

/-- The alternatives of all tasks. -/
def together (ask : Task → Except Defect Branches) (tasks : List Task) : Except Defect Branches :=
  (·.flatten) <$> tasks.mapM ask

/-- The alternatives for a task, from those for the tasks that it comes down to. -/
def body (ask : Task → Except Defect Branches) : Task → Except Defect Branches
  | branches (.pattern p) => .ok [[.pattern p]]
  | branches (.all items) => inSequence ask (items.map branches)
  | branches (.any items) =>
    if items.isEmpty then .error .emptyDisjunction else together ask (items.map branches)
  | branches (.absent item) => ask (absence item)
  | branches (.present item) => ask (presence item)
  | branches (.every base require) => .ok [[.every base require]]
  | branches (.accumulate a) => .ok [[.accumulate a]]
  | branches (.predicate p) => .ok [[.predicate p]]
  | absence (.pattern p) => .ok [[.absent p]]
  | absence (.any items) => ask (branches (.all (items.map .absent)))
  | absence (.all [item]) => ask (absence item)
  | absence (.all _) => .error .wideAbsence
  | absence (.absent item) => ask (presence item)
  | absence (.present item) => ask (absence item)
  | absence (.every base require) => .ok [[.present (base.violating require)]]
  | absence (.predicate p) => .ok [[.predicate p.negate]]
  | absence (.accumulate _) => .error .wideAbsence
  | presence (.pattern p) => .ok [[.present p]]
  | presence (.any items) => together ask (items.map presence)
  | presence (.all [item]) => ask (presence item)
  | presence (.all _) => .error .widePresence
  | presence (.absent item) => ask (absence item)
  | presence (.present item) => ask (presence item)
  | presence (.every base require) => ask (branches (.every base require))
  | presence (.predicate p) => ask (branches (.predicate p))
  | presence (.accumulate _) => .error .widePresence

/-- The tasks that a task comes down to. -/
def calls : Task → List Task
  | branches (.all items) | branches (.any items) => items.map branches
  | branches (.absent item) => [absence item]
  | branches (.present item) => [presence item]
  | absence (.any items) => [branches (.all (items.map .absent))]
  | absence (.all [item]) => [absence item]
  | absence (.absent item) => [presence item]
  | absence (.present item) => [absence item]
  | presence (.any items) => items.map presence
  | presence (.all [item]) => [presence item]
  | presence (.absent item) => [absence item]
  | presence (.present item) => [presence item]
  | presence (.every base require) => [branches (.every base require)]
  | presence (.predicate p) => [branches (.predicate p)]
  | _ => []

end Task

/-! ## The work ends -/

mutual

/-- A bound on the work that a condition makes. Alternatives weigh more than the sequence of
    absences that may replace them. -/
def weight : Condition → Nat
  | all items => weightOfAll items + 1
  | any items => weightOfAll items + 2 * items.length + 2
  | absent item => weight item + 2
  | present item => weight item + 2
  | pattern _ | every _ _ | accumulate _ | predicate _ => 0

def weightOfAll : List Condition → Nat
  | [] => 0
  | item :: rest => weight item + weightOfAll rest

end

theorem weight_le_of_mem {item : Condition} : ∀ {items : List Condition}, item ∈ items →
    weight item ≤ weightOfAll items
  | first :: rest, h => by
    rw [weightOfAll]
    rcases List.mem_cons.1 h with rfl | h
    · omega
    · have := weight_le_of_mem h
      omega

theorem weightOfAll_map_absent (items : List Condition) :
    weightOfAll (items.map absent) = weightOfAll items + 2 * items.length := by
  induction items with
  | nil => rfl
  | cons item rest ih =>
    rw [List.map_cons, weightOfAll, weightOfAll, weight, ih, List.length_cons]
    omega

namespace Task

/-- The work left on a task. -/
def work : Task → Nat
  | branches c => c.weight
  | absence c => c.weight
  | presence c => c.weight + 1

/-- A task comes down to tasks with less work left. -/
theorem work_lt_of_mem_calls {t u : Task} (h : u ∈ t.calls) : u.work < t.work := by
  have hitems {items : List Condition} {f : Condition → Task} (h : u ∈ items.map f) :
      ∃ item, item.weight ≤ weightOfAll items ∧ u = f item := by
    obtain ⟨item, hitem, rfl⟩ := List.mem_map.1 h
    exact ⟨item, weight_le_of_mem hitem, rfl⟩
  unfold calls at h
  split at h
  · obtain ⟨item, hle, rfl⟩ := hitems h
    simp only [work, weight]
    omega
  · obtain ⟨item, hle, rfl⟩ := hitems h
    simp only [work, weight]
    omega
  case h_5 items =>
    cases List.mem_singleton.1 h
    simp only [work, weight, weightOfAll_map_absent]
    omega
  case h_9 =>
    obtain ⟨item, hle, rfl⟩ := hitems h
    simp only [work, weight]
    omega
  case h_15 => cases h
  all_goals
    cases List.mem_singleton.1 h
    simp only [work, weight, weightOfAll]
    omega

theorem wellFounded_calls : WellFounded fun u t : Task => u ∈ t.calls :=
  Subrelation.wf work_lt_of_mem_calls (measure work).wf

/-! ## The equations and their solution -/

theorem inSequence_congr {ask ask' : Task → Except Defect Branches} {tasks : List Task}
    (h : ∀ u ∈ tasks, ask u = ask' u) : inSequence ask tasks = inSequence ask' tasks := by
  rw [inSequence, inSequence]
  generalize [[]] = before
  induction tasks generalizing before with
  | nil => rfl
  | cons u rest ih =>
    rw [List.foldlM_cons, List.foldlM_cons, h u List.mem_cons_self]
    congr 1
    funext next
    exact ih (fun v hv => h v (List.mem_cons_of_mem u hv)) next

theorem together_congr {ask ask' : Task → Except Defect Branches} {tasks : List Task}
    (h : ∀ u ∈ tasks, ask u = ask' u) : together ask tasks = together ask' tasks := by
  rw [together, together]
  congr 1
  induction tasks with
  | nil => rfl
  | cons u rest ih =>
    rw [List.mapM_cons, List.mapM_cons, h u List.mem_cons_self,
      ih fun v hv => h v (List.mem_cons_of_mem u hv)]

/-- The answer to a task depends on nothing but the answers to the tasks that it comes down to. -/
theorem body_congr {ask ask' : Task → Except Defect Branches} {t : Task}
    (h : ∀ u ∈ t.calls, ask u = ask' u) : t.body ask = t.body ask' := by
  unfold body
  split <;> simp only [calls, List.mem_singleton, forall_eq] at h <;> try first | rfl | exact h
  · exact inSequence_congr h
  · rw [together_congr h]
  · exact together_congr h

theorem together_cons (ask : Task → Except Defect Branches) (u : Task) (rest : List Task) :
    together ask (u :: rest) = (do
      let alternatives ← ask u
      let others ← together ask rest
      .ok (alternatives ++ others)) := by
  rw [together, together, List.mapM_cons]
  cases ask u with
  | error d => rfl
  | ok alternatives =>
    cases rest.mapM ask with
    | error d => rfl
    | ok others => rfl

theorem inSequence_branches (items : List Condition) (before : Branches) :
    (items.map branches).foldlM (fun before task => do before.product (← result task)) before =
      branchesOfAll before items := by
  induction items generalizing before with
  | nil => rfl
  | cons item rest ih =>
    rw [List.map_cons, List.foldlM_cons, branchesOfAll, bind_assoc]
    congr 1
    funext alternatives
    congr 1
    funext next
    exact ih next

theorem together_branches (items : List Condition) :
    together result (items.map branches) = branchesOfAny items := by
  induction items with
  | nil => rfl
  | cons item rest ih =>
    rw [List.map_cons, together_cons, ih]
    rfl

theorem together_presence (items : List Condition) :
    together result (items.map presence) = presentBranchesOfAny items := by
  induction items with
  | nil => rfl
  | cons item rest ih =>
    rw [List.map_cons, together_cons, ih]
    rfl

/-- The absence of alternatives is the sequence of their absences. -/
theorem branchesOfAll_absent (items : List Condition) (before : Branches) :
    branchesOfAll before (items.map absent) = absentBranchesOfAll before items := by
  induction items generalizing before with
  | nil => rfl
  | cons item rest ih =>
    rw [List.map_cons, branchesOfAll, absentBranchesOfAll, Condition.branches]
    congr 1
    funext alternatives
    congr 1
    funext next
    exact ih next

/-- What is computed solves the equations. -/
theorem result_eq_body (t : Task) : t.result = t.body result := by
  cases t with
  | branches c =>
    cases c with
    | all items => exact (inSequence_branches items [[]]).symm
    | any items =>
      rw [body, together_branches, result, Condition.branches]
    | _ => rfl
  | absence c =>
    cases c with
    | all items => match items with
      | [] | [_] | _ :: _ :: _ => rfl
    | any items => exact (branchesOfAll_absent items [[]]).symm
    | _ => rfl
  | presence c =>
    cases c with
    | all items => match items with
      | [] | [_] | _ :: _ :: _ => rfl
    | any items => exact (together_presence items).symm
    | _ => rfl

/-- What solves the equations is what is computed. -/
theorem eq_result {ask : Task → Except Defect Branches} (h : ∀ t, ask t = t.body ask) :
    ask = result := by
  funext t
  induction t using wellFounded_calls.induction with
  | _ t ih => rw [h t, result_eq_body t, body_congr ih]

end Task

/-! ## Normalization -/

theorem normalize_eq {c : Condition} {bs : Branches} (h : c.normalize = .ok bs) :
    c.branches = .ok bs ∧ bs.length ≤ maxBranches := by
  obtain ⟨alternatives, halt, h⟩ := ok_of_bind h
  split at h
  · cases h
  · next hle =>
    cases h
    exact ⟨halt, Nat.le_of_not_lt hle⟩

/-- Normalization ends on every condition, as whatever solves its equations is what it computes.
    It gives no more than `maxBranches` branches, and these mean together what the condition means,
    if no universal condition over a length window is negated. -/
theorem normalize_meaning (c : Condition) :
    Acc (fun u t => u ∈ Task.calls t) (.branches c) ∧
    (∀ ask, (∀ t, ask t = Task.body ask t) → ask (.branches c) = c.branches) ∧
    match c.normalize with
    | .error _ => True
    | .ok bs => bs.length ≤ maxBranches ∧ (Unbounded (c.negatedBases false) →
        ∀ scene β β', Allows scene bs β β' ↔ β' ∈ c.meaning scene β) := by
  refine ⟨Task.wellFounded_calls.apply _, ?_, ?_⟩
  · intro ask hask
    rw [Task.eq_result hask, Task.result]
  · split
    · trivial
    · next bs hbs =>
      obtain ⟨hbranches, hle⟩ := normalize_eq hbs
      exact ⟨hle, fun hw scene β β' => branches_meaning c hbranches hw β β'⟩

/-- The absence of two alternatives, one an absence, the other universal, is one branch that seeks
    a fact and a fact that violates the requirement. It extends nothing where there are no facts. -/
theorem normalize_meaning_absent_any :
    ∃ bs, (absent (any [absent (pattern ⟨"Door", none, [], [], none⟩),
        every ⟨"Door", none, [], [], none⟩
          [.compare "locked" .equal (.literal (.boolean true))]])).normalize = .ok bs ∧
      bs.length = 1 ∧ ¬Allows ⟨[], 0⟩ bs .empty .empty := by
  refine ⟨_, rfl, rfl, ?_⟩
  have h := (normalize_meaning (absent (any [absent (pattern ⟨"Door", none, [], [], none⟩),
    every ⟨"Door", none, [], [], none⟩
      [.compare "locked" .equal (.literal (.boolean true))]]))).2.2.2 ?_ ⟨[], 0⟩ .empty .empty
  · rw [h]
    decide
  · intro p hp n
    simp only [negatedBases, negatedBasesOfAll] at hp
    simp_all

end Condition

end RuleNet
