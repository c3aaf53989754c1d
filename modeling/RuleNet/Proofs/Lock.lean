/-
  What the lock of an agenda stands for.

  The agenda only keeps the name of the locked group. It is the group on top of the focus stack, as long as
  something of it has been taken since it came to the top and it has not been unlocked since.

  * `Agenda.Act`, `Agenda.run`: what is done to an agenda, one act after the other.
  * `Agenda.Held`: something was taken since the top of the stack last changed or it was unlocked.
  * `Agenda.Turn`: an act takes something, or frees the lock, or leaves focus and lock alone.
  * `Agenda.isLocked_iff_held`: so a group is locked just if it is held.
-/
import Mathlib.Data.List.Induction
import RuleNet.Proofs.Agenda

namespace RuleNet.Agenda

/-! ## Acts -/

/-- What is done to an agenda. -/
inductive Act where
  | create (rule terminal token : Nat) (salience : Int) (group : String) (binding : Binding)
  | cancel (terminal token : Nat)
  | clearGroup (group : String)
  | popNext
  | setFocus (group : String)
  | popFocus
  | unlock
  | recordSuppressed

/-- An agenda after an act; nothing is taken where nothing waits. -/
def after (agenda : Agenda) : Act → Agenda
  | .create rule terminal token salience group binding =>
    agenda.create rule terminal token salience group binding
  | .cancel terminal token => (agenda.cancel terminal token).2
  | .clearGroup group => (agenda.clearGroup group).2
  | .popNext => match agenda.popNext with
    | some (_, agenda) => agenda
    | none => agenda
  | .setFocus group => agenda.setFocus group
  | .popFocus => agenda.popFocus.2
  | .unlock => agenda.unlock
  | .recordSuppressed => agenda.recordSuppressed

/-- An agenda after acts in a row. -/
def run (agenda : Agenda) (acts : List Act) : Agenda := acts.foldl after agenda

theorem run_append (agenda : Agenda) (acts more : List Act) :
    agenda.run (acts ++ more) = (agenda.run acts).run more := List.foldl_append

/-- None of the acts unlocks the agenda or changes the top of the focus stack. -/
def Undisturbed (agenda : Agenda) : List Act → Prop
  | [] => True
  | act :: rest => act ≠ .unlock ∧ (agenda.after act).focus = agenda.focus ∧
    (agenda.after act).Undisturbed rest

/-- After acts on an empty agenda a group is on top of the focus stack, and something was taken since the
    top last changed or the agenda was unlocked. -/
def Held (strategy : ConflictStrategy) (acts : List Act) (group : String) : Prop :=
  ((empty strategy).run acts).focus = group ∧ ∃ before later, acts = before ++ .popNext :: later ∧
    ((empty strategy).run before).popNext ≠ none ∧
    (((empty strategy).run before).after .popNext).Undisturbed later

/-! ## What acts do -/

variable {agenda : Agenda} {act : Act} {strategy : ConflictStrategy} {acts more : List Act}
  {group : String}

theorem undisturbed_snoc (agenda : Agenda) (acts : List Act) (act : Act) :
    agenda.Undisturbed (acts ++ [act]) ↔ agenda.Undisturbed acts ∧ act ≠ .unlock ∧
      ((agenda.run acts).after act).focus = (agenda.run acts).focus := by
  induction acts generalizing agenda with
  | nil => simp [Undisturbed, run]
  | cons first rest ih =>
    rw [List.cons_append, Undisturbed, Undisturbed, ih, and_assoc, and_assoc]
    rfl

/-- The stack has a top, and no group stands twice in a row. -/
def Stacked (agenda : Agenda) : Prop := agenda.stack ≠ [] ∧ agenda.stack.IsChain (· ≠ ·)

/-- Where neither the stack nor the lock changes, focus and lock are what they were. -/
theorem focus_congr {agenda' : Agenda} (h : agenda'.stack = agenda.stack) :
    agenda'.focus = agenda.focus := by rw [focus, focus, h]

theorem focus_cons {top : String} {rest : List String} (h : agenda.stack = top :: rest) :
    agenda.focus = top := by rw [focus, h]; rfl

theorem stack_cancel (agenda : Agenda) (terminal token : Nat) :
    (agenda.cancel terminal token).2.stack = agenda.stack := by
  unfold cancel
  split
  · rfl
  · split <;> rfl

theorem stack_strikeAll (cleared : List Activation) (agenda : Agenda) :
    (agenda.strikeAll cleared).stack = agenda.stack := by
  induction cleared generalizing agenda with
  | nil => rfl
  | cons a rest ih => exact ih _

theorem stack_clearGroup (agenda : Agenda) (group : String) :
    (agenda.clearGroup group).2.stack = agenda.stack :=
  stack_strikeAll _ { agenda with groups := agenda.groups.erase group }

/-- What is taken is of the focused group, which is locked then. -/
theorem popNext_focus {a : Activation} {agenda' : Agenda} (h : agenda.popNext = some (a, agenda')) :
    agenda'.stack = agenda.stack ∧ agenda'.locked = some agenda.focus := by
  unfold popNext at h
  obtain ⟨⟨rank, id⟩, -, h⟩ := Option.bind_eq_some_iff.1 h
  obtain ⟨b, -, h⟩ := Option.bind_eq_some_iff.1 h
  cases h
  exact ⟨rfl, rfl⟩

/-- How an act turns the lock: something is taken, the lock is freed, or focus and lock stay. -/
inductive Turn (agenda : Agenda) (act : Act) : Prop
  | taken (hact : act = .popNext) (hp : agenda.popNext ≠ none)
    (hfocus : (agenda.after act).focus = agenda.focus)
    (hlocked : (agenda.after act).locked = some agenda.focus)
  | freed (hp : act = .popNext → agenda.popNext = none)
    (hchange : act = .unlock ∨ (agenda.after act).focus ≠ agenda.focus)
    (hlocked : (agenda.after act).locked = none)
  | idle (hp : act = .popNext → agenda.popNext = none) (hact : act ≠ .unlock)
    (hfocus : (agenda.after act).focus = agenda.focus)
    (hlocked : (agenda.after act).locked = agenda.locked)

theorem Stacked.turn (h : agenda.Stacked) (act : Act) :
    (agenda.after act).Stacked ∧ agenda.Turn act := by
  -- acts that have nothing to do with the focus
  have hidle : (act = .popNext → agenda.popNext = none) → act ≠ .unlock →
      (agenda.after act).stack = agenda.stack → (agenda.after act).locked = agenda.locked →
      (agenda.after act).Stacked ∧ agenda.Turn act := fun hpop hunlock hstack hlocked =>
    ⟨by rw [Stacked, hstack]; exact h, .idle hpop hunlock (focus_congr hstack) hlocked⟩
  cases act with
  | create rule terminal token salience group binding => exact hidle nofun nofun rfl rfl
  | cancel terminal token =>
    exact hidle nofun nofun (stack_cancel agenda terminal token) (locked_cancel agenda terminal token)
  | clearGroup group =>
    exact hidle nofun nofun (stack_clearGroup agenda group) (locked_clearGroup agenda group)
  | recordSuppressed => exact hidle nofun nofun rfl rfl
  | unlock => exact ⟨h, .freed nofun (.inl rfl) rfl⟩
  | popNext =>
    cases hp : agenda.popNext with
    | none => exact hidle (fun _ => hp) nofun (by rw [after, hp]) (by rw [after, hp])
    | some taken =>
      obtain ⟨a, agenda'⟩ := taken
      obtain ⟨hstack, hlocked⟩ := popNext_focus hp
      have hafter : agenda.after .popNext = agenda' := by rw [after, hp]
      refine ⟨by rw [hafter, Stacked, hstack]; exact h, .taken rfl (hp ▸ nofun) ?_ ?_⟩
      · rw [hafter]
        exact focus_congr hstack
      · rw [hafter]
        exact hlocked
  | setFocus group =>
    by_cases hfocus : agenda.focus = group
    · have hafter : agenda.after (.setFocus group) = agenda := if_pos hfocus
      exact hidle nofun nofun (by rw [hafter]) (by rw [hafter])
    · have hafter : agenda.after (.setFocus group) =
          { agenda with stack := group :: agenda.stack, locked := none } := if_neg hfocus
      obtain ⟨hne, hchain⟩ := h
      obtain ⟨top, rest, hstack⟩ := List.exists_cons_of_ne_nil hne
      refine ⟨?_, .freed nofun (.inr ?_) ?_⟩
      · rw [hafter, Stacked, hstack]
        rw [hstack] at hchain
        rw [focus_cons hstack] at hfocus
        exact ⟨nofun, List.isChain_cons_cons.2 ⟨Ne.symm hfocus, hchain⟩⟩
      · rw [hafter]
        exact Ne.symm hfocus
      · rw [hafter]
  | popFocus =>
    obtain ⟨hne, hchain⟩ := h
    rcases hstack : agenda.stack with _ | ⟨top, _ | ⟨next, rest⟩⟩
    · exact absurd hstack hne
    · have hafter : agenda.after .popFocus = agenda := by rw [after, popFocus, hstack]
      exact hidle nofun nofun (by rw [hafter]) (by rw [hafter])
    · have hafter : agenda.after .popFocus =
          { agenda with stack := next :: rest, locked := none } := by rw [after, popFocus, hstack]
      rw [hstack] at hchain
      obtain ⟨htop, hrest⟩ := List.isChain_cons_cons.1 hchain
      refine ⟨?_, .freed nofun (.inr ?_) ?_⟩
      · rw [hafter]
        exact ⟨nofun, hrest⟩
      · rw [hafter, focus_cons hstack]
        exact Ne.symm htop
      · rw [hafter]

/-! ## Locks -/

theorem stacked_run (strategy : ConflictStrategy) (acts : List Act) :
    ((empty strategy).run acts).Stacked := by
  have hall : ∀ (acts : List Act) (agenda : Agenda), agenda.Stacked → (agenda.run acts).Stacked := by
    intro acts
    induction acts with
    | nil => exact fun _ h => h
    | cons act rest ih => exact fun _ h => ih _ (h.turn act).1
  exact hall acts _ ⟨nofun, .singleton _⟩

/-- What is held after one act more: the act has taken something, or all was held before and the act
    leaves it so. -/
theorem held_snoc (strategy : ConflictStrategy) (acts : List Act) (act : Act) (group : String) :
    Held strategy (acts ++ [act]) group ↔
      (((empty strategy).run acts).after act).focus = group ∧
      ((act = .popNext ∧ ((empty strategy).run acts).popNext ≠ none) ∨
        (Held strategy acts ((empty strategy).run acts).focus ∧ act ≠ .unlock ∧
          (((empty strategy).run acts).after act).focus = ((empty strategy).run acts).focus)) := by
  have hrun : (empty strategy).run (acts ++ [act]) = ((empty strategy).run acts).after act :=
    run_append _ _ _
  have hmid : ∀ before later, (((empty strategy).run before).after .popNext).run later =
      (empty strategy).run (before ++ .popNext :: later) := fun before later =>
    (run_append _ _ (.popNext :: later)).symm
  rw [Held, hrun]
  refine and_congr_right fun _ => ⟨?_, ?_⟩
  · rintro ⟨before, later, heq, hpop, hlater⟩
    rcases List.eq_nil_or_concat later with rfl | ⟨mid, last, rfl⟩
    · obtain ⟨rfl, hact⟩ := List.append_inj' heq rfl
      exact .inl ⟨List.singleton_inj.1 hact, hpop⟩
    · have heq' : acts ++ [act] = (before ++ .popNext :: mid) ++ [last] := by
        rw [heq, List.append_assoc, List.cons_append, List.concat_eq_append]
      obtain ⟨rfl, hact⟩ := List.append_inj' heq' rfl
      obtain rfl := List.singleton_inj.1 hact
      rw [List.concat_eq_append, undisturbed_snoc, hmid] at hlater
      exact .inr ⟨⟨rfl, before, mid, rfl, hpop, hlater.1⟩, hlater.2⟩
  · rintro (⟨rfl, hpop⟩ | ⟨⟨-, before, later, rfl, hpop, hlater⟩, hact, hfocus⟩)
    · exact ⟨acts, [], rfl, hpop, trivial⟩
    · refine ⟨before, later ++ [act], by rw [List.append_assoc, List.cons_append], hpop, ?_⟩
      rw [undisturbed_snoc, hmid]
      exact ⟨hlater, hact, hfocus⟩

/-- After whatever was done, a group is locked just if it is held. -/
theorem isLocked_iff_held (strategy : ConflictStrategy) (acts : List Act) (group : String) :
    ((empty strategy).run acts).isLocked group = true ↔ Held strategy acts group := by
  induction acts using List.reverseRecOn generalizing group with
  | nil =>
    refine iff_of_false nofun ?_
    rintro ⟨-, before, later, heq, -⟩
    exact absurd heq.symm (List.append_ne_nil_of_right_ne_nil _ nofun)
  | append_singleton acts act ih =>
    have hrun : (empty strategy).run (acts ++ [act]) = ((empty strategy).run acts).after act :=
      run_append _ _ _
    rw [held_snoc, ← ih, hrun, isLocked, isLocked, beq_iff_eq, beq_iff_eq]
    cases ((stacked_run strategy acts).turn act).2 with
    | taken hact hp hfocus hlocked =>
      rw [hlocked, hfocus]
      exact ⟨fun h => ⟨Option.some.inj h, .inl ⟨hact, hp⟩⟩, fun h => congrArg some h.1⟩
    | freed hp hchange hlocked =>
      rw [hlocked]
      refine iff_of_false nofun ?_
      rintro ⟨-, ⟨hact, hne⟩ | ⟨-, hact, hsame⟩⟩
      · exact hne (hp hact)
      · exact hchange.elim hact fun hdiffers => hdiffers hsame
    | idle hp hact hfocus hlocked =>
      rw [hlocked, hfocus]
      constructor
      · intro hlock
        -- a group that is locked has the focus
        have hheld := (ih group).1 (beq_iff_eq.2 hlock)
        exact ⟨hheld.1, .inr ⟨hheld.1 ▸ hlock, hact, rfl⟩⟩
      · rintro ⟨rfl, ⟨hpop, hne⟩ | ⟨hlock, -⟩⟩
        · exact absurd (hp hpop) hne
        · exact hlock

end RuleNet.Agenda
