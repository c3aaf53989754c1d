/-
  Where the elements of branches come from.

  * `Condition.leaves`: the patterns, universal conditions, folds and predicates of a condition.
  * `Element.Stems`: which elements a leaf may become, under negations or not.
  * `Condition.stems_of_normalize`: every element of a branch stems from a leaf of the condition.
-/
import RuleNet.Proofs.Network.Build

namespace RuleNet

namespace Condition

mutual

/-- The parts of a condition that are not made of others. -/
def leaves : Condition → List Condition
  | all items => leavesOfAll items
  | any items => leavesOfAll items
  | absent item => leaves item
  | present item => leaves item
  | pattern p => [pattern p]
  | every base require => [every base require]
  | accumulate a => [accumulate a]
  | predicate p => [predicate p]

def leavesOfAll : List Condition → List Condition
  | [] => []
  | item :: rest => leaves item ++ leavesOfAll rest

end

end Condition

/-- What becomes of a leaf in a branch. -/
inductive Element.Stems : Element → Condition → Prop
  | pattern (p : Pattern) : Stems (.pattern p) (.pattern p)
  | absent (p : Pattern) : Stems (.absent p) (.pattern p)
  | present (p : Pattern) : Stems (.present p) (.pattern p)
  | every (base : Pattern) (require : List Constraint) :
    Stems (.every base require) (.every base require)
  | violating (base : Pattern) (require : List Constraint) :
    Stems (.present (base.violating require)) (.every base require)
  | accumulate (a : Accumulate) : Stems (.accumulate a) (.accumulate a)
  | predicate (p : Predicate) : Stems (.predicate p) (.predicate p)
  | negated (p : Predicate) : Stems (.predicate p.negate) (.predicate p)

/-- All elements of the branches stem from some leaves. -/
def Branches.StemFrom (bs : Branches) (leaves : List Condition) : Prop :=
  ∀ branch ∈ bs, ∀ e ∈ branch, ∃ leaf ∈ leaves, e.Stems leaf

namespace Branches.StemFrom

variable {xs ys zs : Branches} {ls ms : List Condition}

theorem mono (h : StemFrom xs ls) (hsub : ∀ leaf ∈ ls, leaf ∈ ms) : StemFrom xs ms := by
  intro branch hb e he
  obtain ⟨leaf, hleaf, hstems⟩ := h branch hb e he
  exact ⟨leaf, hsub leaf hleaf, hstems⟩

theorem nothing : StemFrom [[]] [] := by
  intro branch hb e he
  cases List.mem_singleton.1 hb
  cases he

theorem one {e : Element} {leaf : Condition} (h : e.Stems leaf) : StemFrom [[e]] [leaf] := by
  intro branch hb e' he'
  cases List.mem_singleton.1 hb
  cases List.mem_singleton.1 he'
  exact ⟨leaf, List.mem_singleton_self leaf, h⟩

theorem append (hx : StemFrom xs ls) (hy : StemFrom ys ms) : StemFrom (xs ++ ys) (ls ++ ms) := by
  intro branch hb
  rcases List.mem_append.1 hb with hb | hb
  · exact hx.mono (fun _ h => List.mem_append_left ms h) branch hb
  · exact hy.mono (fun _ h => List.mem_append_right ls h) branch hb

theorem product (hx : StemFrom xs ls) (hy : StemFrom ys ms) (h : Branches.product xs ys = .ok zs) :
    StemFrom zs (ls ++ ms) := by
  simp only [Branches.product] at h
  split at h
  · cases h
  · cases h
    intro branch hb e he
    obtain ⟨x, hxm, hb⟩ := List.mem_flatMap.1 hb
    obtain ⟨y, hym, rfl⟩ := List.mem_map.1 hb
    rcases List.mem_append.1 he with he | he
    · exact hx.mono (fun _ h => List.mem_append_left ms h) x hxm e he
    · exact hy.mono (fun _ h => List.mem_append_right ls h) y hym e he

end Branches.StemFrom

namespace Condition

open Branches (StemFrom)

mutual

theorem stems_of_branches : ∀ (c : Condition) {bs : Branches}, c.branches = .ok bs →
    StemFrom bs c.leaves
  | pattern p, bs, h => by cases h; exact .one (.pattern p)
  | all items, bs, h => by
    rw [branches] at h
    exact stems_of_branchesOfAll items .nothing h
  | any items, bs, h => by
    rw [branches] at h
    split at h
    · cases h
    · exact stems_of_branchesOfAny items h
  | absent item, bs, h => stems_of_absentBranches item h
  | present item, bs, h => stems_of_presentBranches item h
  | every base require, bs, h => by cases h; exact .one (.every base require)
  | accumulate a, bs, h => by cases h; exact .one (.accumulate a)
  | predicate p, bs, h => by cases h; exact .one (.predicate p)

theorem stems_of_branchesOfAll : ∀ (items : List Condition) {ls : List Condition}
    {before bs : Branches}, StemFrom before ls → branchesOfAll before items = .ok bs →
    StemFrom bs (ls ++ leavesOfAll items)
  | [], ls, before, bs, hb, h => by
    cases h
    rwa [leavesOfAll, List.append_nil]
  | item :: rest, ls, before, bs, hb, h => by
    obtain ⟨alternatives, halt, h⟩ := ok_of_bind h
    obtain ⟨next, hnext, h⟩ := ok_of_bind h
    have hn := hb.product (stems_of_branches item halt) hnext
    rw [leavesOfAll, ← List.append_assoc]
    exact stems_of_branchesOfAll rest hn h

theorem stems_of_branchesOfAny : ∀ (items : List Condition) {bs : Branches},
    branchesOfAny items = .ok bs → StemFrom bs (leavesOfAll items)
  | [], bs, h => by
    cases h
    exact fun _ hb => absurd hb List.not_mem_nil
  | item :: rest, bs, h => by
    obtain ⟨alternatives, halt, h⟩ := ok_of_bind h
    obtain ⟨others, hrest, h⟩ := ok_of_bind h
    cases h
    exact (stems_of_branches item halt).append (stems_of_branchesOfAny rest hrest)

theorem stems_of_absentBranches : ∀ (c : Condition) {bs : Branches}, c.absentBranches = .ok bs →
    StemFrom bs c.leaves
  | pattern p, bs, h => by cases h; exact .one (.absent p)
  | any items, bs, h => by
    rw [absentBranches] at h
    exact stems_of_absentBranchesOfAll items .nothing h
  | all [item], bs, h => by
    rw [absentBranches] at h
    exact (stems_of_absentBranches item h).mono fun _ hl => List.mem_append_left _ hl
  | all [], bs, h => by simp [absentBranches] at h
  | all (_ :: _ :: _), bs, h => by simp [absentBranches] at h
  | absent item, bs, h => stems_of_presentBranches item h
  | present item, bs, h => stems_of_absentBranches item h
  | every base require, bs, h => by cases h; exact .one (.violating base require)
  | predicate p, bs, h => by cases h; exact .one (.negated p)
  | accumulate _, bs, h => by cases h

theorem stems_of_absentBranchesOfAll : ∀ (items : List Condition) {ls : List Condition}
    {before bs : Branches}, StemFrom before ls → absentBranchesOfAll before items = .ok bs →
    StemFrom bs (ls ++ leavesOfAll items)
  | [], ls, before, bs, hb, h => by
    cases h
    rwa [leavesOfAll, List.append_nil]
  | item :: rest, ls, before, bs, hb, h => by
    obtain ⟨alternatives, halt, h⟩ := ok_of_bind h
    obtain ⟨next, hnext, h⟩ := ok_of_bind h
    have hn := hb.product (stems_of_absentBranches item halt) hnext
    rw [leavesOfAll, ← List.append_assoc]
    exact stems_of_absentBranchesOfAll rest hn h

theorem stems_of_presentBranches : ∀ (c : Condition) {bs : Branches}, c.presentBranches = .ok bs →
    StemFrom bs c.leaves
  | pattern p, bs, h => by cases h; exact .one (.present p)
  | any items, bs, h => stems_of_presentBranchesOfAny items h
  | all [item], bs, h => by
    rw [presentBranches] at h
    exact (stems_of_presentBranches item h).mono fun _ hl => List.mem_append_left _ hl
  | all [], bs, h => by simp [presentBranches] at h
  | all (_ :: _ :: _), bs, h => by simp [presentBranches] at h
  | absent item, bs, h => stems_of_absentBranches item h
  | present item, bs, h => stems_of_presentBranches item h
  | every base require, bs, h => by cases h; exact .one (.every base require)
  | predicate p, bs, h => by cases h; exact .one (.predicate p)
  | accumulate _, bs, h => by cases h

theorem stems_of_presentBranchesOfAny : ∀ (items : List Condition) {bs : Branches},
    presentBranchesOfAny items = .ok bs → StemFrom bs (leavesOfAll items)
  | [], bs, h => by
    cases h
    exact fun _ hb => absurd hb List.not_mem_nil
  | item :: rest, bs, h => by
    obtain ⟨alternatives, halt, h⟩ := ok_of_bind h
    obtain ⟨others, hrest, h⟩ := ok_of_bind h
    cases h
    exact (stems_of_presentBranches item halt).append (stems_of_presentBranchesOfAny rest hrest)

end

/-- Every element of a branch stems from a leaf of the condition. -/
theorem stems_of_normalize {c : Condition} {bs : Branches} (h : c.normalize = .ok bs) :
    StemFrom bs c.leaves := by
  obtain ⟨alternatives, halt, h⟩ := ok_of_bind h
  split at h
  · cases h
  · cases h
    exact stems_of_branches c halt

end Condition

end RuleNet
