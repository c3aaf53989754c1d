/-
  The life of a matching.

  A session drives its matches by few calls. A fact comes once working memory has it, and goes while
  working memory has it still; a fact that changes goes with its old value and comes with its new one.
  Between these calls events leave their windows, updates begin and end, and what happened is taken.

  * `Life`: a matching with its working memory, and all that has been told so far.
  * `Life.Step`, `Life.Later`: one call, and calls one after the other from the start.
  * `Life.Right`, `Life.right_of_later`: nothing is amiss after any call.
-/
import RuleNet.Proofs.Session.Steady
import RuleNet.Proofs.Matching.Strides
import RuleNet.Proofs.WorkingMemory

namespace RuleNet

/-- A matching and its working memory, between two calls. -/
structure Life where
  store : WorkingMemory
  matching : Matching
  /-- The fact that has left the matches, and that working memory still has. -/
  leaving : Option Handle
  /-- The events that have been taken. -/
  told : List MatchEvent

namespace Life

/-- All that has been told, from the start. -/
def stream (l : Life) : List MatchEvent := l.told ++ l.matching.events.toList

/-- A life begins without facts. -/
def start (net : Network) (mode : IdentityMode) : Life :=
  ⟨.empty mode, Matching.start net (.empty mode), none, []⟩

/-- One call. -/
inductive Step (net : Network) : Life → Life → Prop
  | insert (l : Life) (fact : Fact) (moment now : Moment) (hidle : l.leaving = none) :
    Step net l { l with
      store := l.store.insert fact moment
      matching := l.matching.assert net (l.store.insert fact moment) l.store.nextHandle now }
  | retract (l : Life) {h : Handle} {entry : Entry} (hidle : l.leaving = none)
    (he : l.store.entry? h = some entry) :
    Step net l { l with matching := l.matching.retract net l.store h, leaving := some h }
  | remove (l : Life) {h : Handle} {entry : Entry} {store : WorkingMemory}
    (hleaving : l.leaving = some h) (hr : l.store.remove? h = .ok (entry, store)) :
    Step net l { l with store, leaving := none }
  | replace (l : Life) {h : Handle} (fact : Fact) (moment now : Moment) {entry : Entry}
    {store : WorkingMemory} (hleaving : l.leaving = some h)
    (hr : l.store.replace? h fact moment = .ok (entry, store)) :
    Step net l
      { l with store, matching := l.matching.assert net store h now, leaving := none }
  | expire (l : Life) (now : Moment) (hidle : l.leaving = none) :
    Step net l { l with matching := l.matching.expireWindows net l.store now }
  | beginUpdate (l : Life) : Step net l { l with matching := l.matching.beginUpdate }
  | endUpdate (l : Life) (hidle : l.leaving = none) :
    Step net l { l with matching := l.matching.endUpdate net l.store }
  | take (l : Life) :
    Step net l { l with matching := l.matching.takeEvents.2, told := l.stream }

/-- Calls lead from one time of a life to another. -/
abbrev Later (net : Network) : Life → Life → Prop := Relation.ReflTransGen (Step net)

/-! ## What holds after every call -/

/-- What is still due. Results that are equal to the ones that are due may be left, as coalesced updates
    do. -/
abbrev due (net : Network) (base : TerminalId → TokenId → Prop) : Ledger :=
  .rest net base UpdatePolicy.coalesce.agree

theorem quiet_due (net : Network) (base : TerminalId → TokenId → Prop) : (due net base).Quiet :=
  Ledger.quiet_rest UpdatePolicy.coalesce.agree_refl

/-- Nothing is amiss. -/
structure Right (net : Network) (l : Life) : Prop where
  kept : ∃ base, Replays (fun _ _ => False) base l.told ∧
    Kept net l.store (due net base) l.matching
  fresh : ∀ {h entry}, l.store.entry? h = some entry → h < l.store.nextHandle
  leaving : ∀ {h}, l.leaving = some h → ∀ a, h ∉ l.matching.members a

variable {net : Network} {l l' : Life}

/-- The members of memories are in working memory. -/
theorem Right.live (R : l.Right net) {a : AlphaId} {h : Handle} (hi : h ∈ l.matching.members a) :
    ∃ entry, l.store.entry? h = some entry := by
  obtain ⟨base, -, k⟩ := R.kept
  obtain ⟨alpha, entry, -, he, -⟩ := k.stocked.typed hi
  exact ⟨entry, he⟩

/-- The next handle is in no memory yet. -/
theorem Right.next_not_mem (R : l.Right net) (a : AlphaId) :
    l.store.nextHandle ∉ l.matching.members a := fun hi => by
  obtain ⟨entry, he⟩ := R.live hi
  exact Nat.lt_irrefl _ (R.fresh he)

/-- A fact that is in no memory may come, change or go in working memory. -/
theorem kept_of_same {base : TerminalId → TokenId → Prop} {store store' : WorkingMemory}
    {m : Matching} {h : Handle} (k : Kept net store (due net base) m)
    (hno : ∀ a, h ∉ m.members a) (hsame : ∀ i, h ≠ i → store'.entry? i = store.entry? i) :
    Kept net store' (due net base) m :=
  k.restock (quiet_due net base).idle (fun _ _ => id) fun a i hi =>
    hsame i fun heq => hno a (heq ▸ hi)

/-- What has been told leads to the tokens that stand at terminals. -/
theorem Right.replays (R : l.Right net) :
    Replays (fun _ _ => False) (l.matching.Stands net) l.stream := by
  obtain ⟨base, hbase, k⟩ := R.kept
  exact hbase.append k.sound.told

section
variable (W : net.WellFormed)
include W

theorem right_start (mode : IdentityMode) : (start net mode).Right net where
  kept := ⟨fun _ _ => False, fun _ _ => Iff.rfl,
    (Kept.start W UpdatePolicy.coalesce.agree_refl).1⟩
  fresh {h entry} he := by
    have hnone : WorkingMemory.entry? (.empty mode) h = none := Std.ExtTreeMap.getElem?_empty
    exact nomatch hnone.symm.trans he
  leaving hl := nomatch hl

/-- A call leaves nothing amiss. -/
theorem Step.right (h : Step net l l') (R : l.Right net) : l'.Right net := by
  obtain ⟨base, hbase, k⟩ := R.kept
  have hx := quiet_due net base
  have hlate : ∀ n i, ¬ (due net base).late n i := fun _ _ => id
  cases h with
  | insert fact moment now hidle =>
    have hentry := l.store.entry?_insert fact moment
    have k₁ : Kept net (l.store.insert fact moment) (due net base) l.matching :=
      kept_of_same k R.next_not_mem fun i hne => by rw [hentry, if_neg hne]
    have T := k₁.assert W hx hlate ((hentry _).trans (if_pos rfl)) R.next_not_mem
      (fun _ _ hexposed => hexposed) (rfl : l.matching.assert net _ l.store.nextHandle now = _)
    refine ⟨⟨base, hbase, T.1⟩, fun {i entry} he => ?_, fun hl => nomatch hidle.symm.trans hl⟩
    show i < l.store.nextHandle + 1
    change WorkingMemory.entry? (l.store.insert fact moment) i = some entry at he
    rw [hentry] at he
    split at he
    · next heq => exact heq ▸ Nat.lt_succ_self _
    · exact Nat.lt_succ_of_lt (R.fresh he)
  | @retract h entry hidle he =>
    have T := k.retract W hx (WorkingMemory.fact?_eq he) rfl
    refine ⟨⟨base, hbase, T.kept⟩, R.fresh, fun hl a hi => ?_⟩
    obtain rfl := Option.some.inj hl
    exact (T.members.1 hi).2 rfl
  | @remove h entry store hleaving hr =>
    obtain ⟨hnext, hentry⟩ := WorkingMemory.remove?_ok hr
    refine ⟨⟨base, hbase, kept_of_same k (R.leaving hleaving) fun i hne => ?_⟩,
      fun {i entry'} he => ?_, fun hl => nomatch hl⟩
    · rw [hentry, if_neg hne]
    · change store.entry? i = some entry' at he
      rw [hentry] at he
      split at he
      · cases he
      · exact hnext ▸ R.fresh he
  | @replace h fact moment now entry store hleaving hr =>
    obtain ⟨hlive, hnext, hentry⟩ := WorkingMemory.replace?_ok hr
    have hno := R.leaving hleaving
    have k₁ : Kept net store (due net base) l.matching :=
      kept_of_same k hno fun i hne => by rw [hentry, if_neg hne]
    have T := k₁.assert W hx hlate ((hentry h).trans (if_pos rfl)) hno
      (fun _ _ hexposed => hexposed) (rfl : l.matching.assert net store h now = _)
    refine ⟨⟨base, hbase, T.1⟩, fun {i entry'} he => ?_, fun hl => nomatch hl⟩
    change store.entry? i = some entry' at he
    rw [hentry] at he
    split at he
    · next heq => exact heq ▸ hnext ▸ R.fresh hlive
    · exact hnext ▸ R.fresh he
  | expire now hidle =>
    exact ⟨⟨base, hbase, (k.expireWindows W hx hlate now rfl).1⟩, R.fresh,
      fun hl => nomatch hidle.symm.trans hl⟩
  | beginUpdate => exact ⟨⟨base, hbase, k.beginUpdate⟩, R.fresh, R.leaving⟩
  | endUpdate hidle =>
    exact ⟨⟨base, hbase, (k.endUpdate W hx (fun _ _ => id) (fun _ _ => .inr) rfl).1⟩, R.fresh,
      fun hl => nomatch hidle.symm.trans hl⟩
  | take => exact ⟨⟨_, R.replays, k.takeEvents⟩, R.fresh, R.leaving⟩

/-- Nothing is amiss at any time. -/
theorem right_of_later {mode : IdentityMode} (h : Later net (start net mode) l) : l.Right net := by
  induction h with
  | refl => exact right_start W mode
  | tail _ hstep ih => exact hstep.right W ih

end

end Life

end RuleNet
