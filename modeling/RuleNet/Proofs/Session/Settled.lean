/-
  Sessions that a synchronisation leaves alone.

  A synchronisation lets go what is overdue and what is too old for a window. Where there is nothing
  of the kind it changes nothing at all: not the matches, not the agenda, not the journal. Between two
  changes of a manual clock time stands still, so the second synchronisation finds nothing to do.

  * `Matching.expireWindows_eq`: windows without an outdated member stay as they are.
  * `Session.Reached.synchronize_eq`: a session with a manual clock and nothing overdue is left alone.
  * `Session.Reached.synchronize_twice`: so is one that has been synchronised.
-/
import RuleNet.Proofs.Query.Synchronized

namespace RuleNet

/-! ## Windows -/

/-- A window that covers its members has no outdated one. -/
theorem Shelf.outdated_eq_nil {shelf : Shelf} {alpha : AlphaNode} {now : Moment}
    (h : ∀ {length p i}, alpha.window = some (.time length) → (p, i) ∈ shelf.order →
      length.covers p now = true) : shelf.outdated alpha now = [] := by
  unfold outdated
  split
  · next length hwindow =>
    have hnone : (shelf.order.toList.takeWhile fun member => !length.covers member.1 now) = [] := by
      refine List.eq_nil_iff_forall_not_mem.2 fun member hmem => ?_
      have hin := Std.ExtTreeSet.mem_toList.1 (List.takeWhile_subset _ hmem)
      have hall := List.all_eq_true.1 (List.all_takeWhile) member hmem
      rw [h hwindow hin] at hall
      cases hall
    rw [hnone, List.map_nil]
  · rfl

/-- Where no window has an outdated member, the windows stay as they are. -/
theorem Matching.expireWindows_eq {net : Network} {store : WorkingMemory} {now : Moment}
    {m : Matching} (h : ∀ a, m.outdated net now a = []) : m.expireWindows net store now = m := by
  unfold expireWindows
  generalize List.range net.alphas.size = alphas
  induction alphas with
  | nil => rfl
  | cons a rest ih =>
    rw [List.foldl_cons, h, List.foldl_nil]
    exact ih

namespace Session

variable {s : Session} {base : RuleBase} {settings : Settings}

/-! ## Nothing to let go -/

/-- Time windows that are up to date have no outdated member. -/
theorem Timely.outdated_eq_nil (h : s.Timely) (hdated : s.Dated) (a : AlphaId) :
    s.matching.outdated s.network s.now a = [] := by
  cases ha : s.network.alpha? a with
  | none =>
    unfold Matching.outdated
    rw [ha]
    rfl
  | some alpha =>
    rw [Matching.outdated_eq _ ha]
    refine Shelf.outdated_eq_nil fun {length p i} hwindow hp => ?_
    have hu : alpha.Unlimited := fun capacity hlimited => by
      rw [hwindow] at hlimited
      cases hlimited
    have O := (hdated ha hu).ordered
    obtain ⟨entry, -, horder, hcovers⟩ := h.files ha hwindow i (O.mem_iff.2 ⟨p, hp⟩)
    rw [O.unique hp horder]
    exact hcovers

theorem Punctual.due_eq_nil (h : s.Punctual) (hundue : s.Undue) : s.expiry.due s.now = [] := by
  refine List.eq_nil_iff_forall_not_mem.2 fun i hi => ?_
  obtain ⟨d, hd, hle⟩ := h.mem_due.1 hi
  exact absurd (hundue hd) (Int.not_lt.2 hle)

/-- A session with nothing overdue and nothing outdated is left alone. -/
theorem synchronize_eq_self (hdue : s.expiry.due s.now = [])
    (houtdated : ∀ a, s.matching.outdated s.network s.now a = []) (htold : s.matching.events = #[]) :
    s.synchronize = s := by
  have htaken : s.expiry.takeDue s.now = s.expiry := by
    unfold ExpirySchedule.takeDue
    rw [hdue]
    rfl
  unfold synchronize
  simp only [hdue, htaken, List.foldl_nil]
  show ({ s with matching := s.matching.expireWindows s.network s.store s.now }).applyEvents = s
  rw [Matching.expireWindows_eq houtdated]
  exact applyEvents_eq htold

namespace Reached

/-- A session with a manual clock is left alone by a synchronisation, if nothing is overdue. -/
theorem synchronize_eq (W : base.network.WellFormed) (hclock : settings.clock = .manual)
    (h : Reached base settings s) (hundue : s.Undue) : s.synchronize = s :=
  synchronize_eq_self ((h.punctual W).due_eq_nil hundue)
    ((h.timely W hclock).outdated_eq_nil (h.dated W)) (h.steady W).1.told

/-- The second of two synchronisations does nothing. -/
theorem synchronize_twice (W : base.network.WellFormed) (hclock : settings.clock = .manual)
    (h : Reached base settings s) : s.synchronize.synchronize = s.synchronize :=
  (h.step (.synchronize s)).synchronize_eq W hclock (h.punctual W).synchronize.2

end Reached

end Session

end RuleNet
