/-
  What can happen to a shared session.

  * `Deed.accepted`, `Deed.servings`: which calls the channel has accepted, and how those were served
    that have been.
  * `Service.step_cases`: a call is accepted, or the oldest one is served, or the owner is idle.
  * `Service.keeps_run`: calls keep what they ask for.
-/
import Mathlib.Data.List.Basic
import RuleNet.Session.Service

namespace RuleNet

/-! ## Deeds -/

namespace Deed

/-- The call that the channel accepts. -/
def accepted? : Deed → Option Nat
  | accept k => some k
  | _ => none

/-- How the oldest call is served. -/
def serving? : Deed → Option Serving
  | serve serving => some serving
  | _ => none

/-- The accepted calls in order. -/
def accepted (deeds : List Deed) : List Nat := deeds.filterMap accepted?

/-- How calls have been served, in order. -/
def servings (deeds : List Deed) : List Serving := deeds.filterMap serving?

/-- How many calls have been served. -/
def served (deeds : List Deed) : Nat := (servings deeds).length

theorem accepted_snoc (deeds : List Deed) (deed : Deed) :
    accepted (deeds ++ [deed]) = accepted deeds ++ deed.accepted?.toList := by
  rw [accepted, List.filterMap_append]
  cases deed <;> rfl

theorem servings_snoc (deeds : List Deed) (deed : Deed) :
    servings (deeds ++ [deed]) = servings deeds ++ deed.serving?.toList := by
  rw [servings, List.filterMap_append]
  cases deed <;> rfl

/-- Where the owner only serves, nothing is accepted. -/
theorem accepted_serve (deeds : List Deed) (servings : List Serving) :
    accepted (deeds ++ servings.map .serve) = accepted deeds := by
  have hnone : (servings.map serve).filterMap accepted? = [] :=
    List.filterMap_eq_nil_iff.2 (List.forall_mem_map.2 fun _ _ => rfl)
  rw [accepted, List.filterMap_append, hnone, List.append_nil, accepted]

theorem servings_serve (deeds : List Deed) (more : List Serving) :
    servings (deeds ++ more.map .serve) = servings deeds ++ more := by
  rw [servings, List.filterMap_append, List.filterMap_map]
  exact congrArg (_ ++ ·) List.filterMap_some

theorem served_snoc (deeds : List Deed) (deed : Deed) :
    served (deeds ++ [deed]) = served deeds + deed.serving?.toList.length := by
  rw [served, servings_snoc, List.length_append, served]

end Deed

namespace Service

variable {v v' w : Service} {more : List Deed} {deed : Deed} {k j : Nat} {state : CallState}

/-! ## Calls -/

theorem call?_put (v : Service) (k : Nat) (state : CallState) (j : Nat) :
    (v.put k state).call? j = if k = j then (v.call? j).map ({ · with state }) else v.call? j := by
  rw [call?, put, List.getElem?_modify]
  split
  · rfl
  · exact Option.map_id_apply

/-- A call has got further, or is what it was. -/
theorem call_of_put {call : Call} (h : (v.put k state).call? j = some call) :
    (j = k ∧ ∃ before, v.call? j = some before ∧ call = { before with state }) ∨
    (j ≠ k ∧ v.call? j = some call) := by
  rw [call?_put] at h
  split at h
  · next heq =>
    obtain ⟨before, hbefore, rfl⟩ := Option.map_eq_some_iff.1 h
    exact .inl ⟨heq.symm, before, hbefore, rfl⟩
  · next hne => exact .inr ⟨Ne.symm hne, h⟩

/-- The answer reaches a call that waits, and no other. -/
theorem reply_cases (v : Service) (k : Nat) (answer : Except EngineError Answer) :
    (∃ call, v.call? k = some call ∧ call.state = .waiting ∧
      v.reply k answer = v.put k (.answered answer)) ∨
    ((∀ call, v.call? k = some call → call.state ≠ .waiting) ∧ v.reply k answer = v) := by
  unfold reply
  split
  · next h =>
    obtain ⟨call, hcall, hstate⟩ := Option.map_eq_some_iff.1 h
    exact .inl ⟨call, hcall, hstate, rfl⟩
  · next h =>
    refine .inr ⟨fun call hcall hstate => h ?_, rfl⟩
    rw [hcall, Option.map_some, hstate]

/-- Other calls are what they were, and one that waited for the answer waits no more. -/
theorem call_of_reply {call c : Call} (hcall : v.call? k = some call)
    {answer : Except EngineError Answer} (hc : (v.reply k answer).call? j = some c) :
    (v.call? j = some c ∧ (j = k → c.state ≠ .waiting)) ∨
      (j = k ∧ c = { call with state := .answered answer }) := by
  rcases v.reply_cases k answer with ⟨before, hb, hw, heq⟩ | ⟨hno, heq⟩
  · rw [heq] at hc
    rcases call_of_put hc with ⟨rfl, before, hbefore, rfl⟩ | ⟨hne, hold⟩
    · obtain rfl := Option.some.inj (hcall.symm.trans hbefore)
      exact .inr ⟨rfl, rfl⟩
    · exact .inl ⟨hold, fun e => absurd e hne⟩
  · rw [heq] at hc
    exact .inl ⟨hc, fun e => hno c (e ▸ hc)⟩

theorem handles_reply (v : Service) (k : Nat) (answer : Except EngineError Answer) :
    (v.reply k answer).handles = v.handles := by
  unfold reply
  split <;> rfl

theorem isOpen_iff : v.isOpen k = true ↔ ∃ call, v.call? k = some call ∧ call.state.isOpen = true :=
  Option.any_eq_true _ _

/-- What a call asks for. -/
def request? (v : Service) (k : Nat) : Option Request := (v.call? k).map Call.request

/-- What calls ask for. -/
def requests (v : Service) (ks : List Nat) : List Request := ks.filterMap v.request?

theorem requests_append (v : Service) (ks more : List Nat) :
    v.requests (ks ++ more) = v.requests ks ++ v.requests more := List.filterMap_append

theorem requests_cons {call : Call} (h : v.call? k = some call) (ks : List Nat) :
    v.requests (k :: ks) = call.request :: v.requests ks :=
  List.filterMap_cons_some (congrArg (Option.map Call.request) h)

theorem length_requests {ks : List Nat} (h : ∀ k ∈ ks, ∃ call, v.call? k = some call) :
    (v.requests ks).length = ks.length := by
  induction ks with
  | nil => rfl
  | cons k ks ih =>
    obtain ⟨⟨call, hcall⟩, hks⟩ := List.forall_mem_cons.1 h
    rw [requests_cons hcall, List.length_cons, List.length_cons, ih hks]

/-- Calls ask for what they asked for. -/
def Keeps (v v' : Service) : Prop :=
  ∀ k call, v.call? k = some call → ∃ call', v'.call? k = some call' ∧ call'.request = call.request

theorem Keeps.refl (v : Service) : v.Keeps v := fun _ call hcall => ⟨call, hcall, rfl⟩

theorem keeps_put (v : Service) (k : Nat) (state : CallState) : v.Keeps (v.put k state) := by
  intro j call hcall
  rw [call?_put, hcall]
  split
  · exact ⟨_, rfl, rfl⟩
  · exact ⟨_, rfl, rfl⟩

theorem keeps_reply (v : Service) (k : Nat) (answer : Except EngineError Answer) :
    v.Keeps (v.reply k answer) := by
  rcases v.reply_cases k answer with ⟨-, -, -, h⟩ | ⟨-, h⟩ <;> rw [h]
  · exact v.keeps_put k _
  · exact .refl v

theorem Keeps.requests (h : v.Keeps v') {ks : List Nat}
    (hks : ∀ k ∈ ks, ∃ call, v.call? k = some call) : v'.requests ks = v.requests ks := by
  refine List.filterMap_congr fun k hk => ?_
  obtain ⟨call, hcall⟩ := hks k hk
  obtain ⟨call', hcall', hrequest⟩ := h k call hcall
  rw [request?, request?, hcall, hcall', Option.map_some, Option.map_some, hrequest]

/-! ## What deeds do -/

/-- Nothing is accepted and nothing is served: calls are made, abandoned or refused, and the owner may
    end. -/
structure Idle (v v' : Service) : Prop where
  keeps : v.Keeps v'
  queue : v'.queue.length ≤ v.queue.length
  held : (∀ {k call}, v.call? k = some call → call.state.isOpen = true → call.handle ∈ v.handles) →
    ∀ {k call}, v'.call? k = some call → call.state.isOpen = true → call.handle ∈ v'.handles
  running : ∀ {t}, v'.owner = .running t → v.owner = .running t ∧ v'.queue = v.queue
  finished : ∀ {t}, v'.owner = .finished t →
    (v.owner = .finished t ∧ (v.handles = [] → v'.handles = [])) ∨
    (v.owner = .running t ∧ v.queue = [] ∧ v'.handles = [])
  calls : ∀ {k call}, v'.call? k = some call → v.call? k = some call ∨
    (call.state = .sending ∧ v.call? k = none) ∨ call.state = .abandoned ∨
    (call.state = .answered (.error .sessionClosed) ∧ v.owner.isRunning = false ∧ v.isOpen k = true)

/-- An owner that runs no more does not run again. -/
theorem Idle.ended (I : Idle v v') (h : v.owner.isRunning = false) : v'.owner.isRunning = false := by
  cases ho : v'.owner with
  | running t =>
    rw [(I.running ho).1] at h
    cases h
  | finished t => rfl
  | stopped => rfl

/-- A call is closed that was open. -/
theorem idle_put (hclosed : state.isOpen = false) (hstate : state = .abandoned ∨
      (state = .answered (.error .sessionClosed) ∧ v.owner.isRunning = false ∧ v.isOpen k = true)) :
    Idle v (v.put k state) where
  keeps := v.keeps_put k state
  queue := Nat.le_refl _
  held h {j call} hcall hopen := by
    rcases call_of_put hcall with ⟨-, before, -, rfl⟩ | ⟨-, hold⟩
    · exact absurd (hclosed.symm.trans hopen) nofun
    · exact h hold hopen
  running ht := ⟨ht, rfl⟩
  finished ht := .inl ⟨ht, id⟩
  calls {j call} hcall := by
    rcases call_of_put hcall with ⟨rfl, before, -, rfl⟩ | ⟨-, hold⟩
    · exact .inr (.inr hstate)
    · exact .inl hold

/-- A call is made through a handle that a client holds. -/
theorem idle_call {handle : Nat} (hheld : handle ∈ v.handles) (request : Request) :
    Idle v { v with calls := v.calls ++ [⟨handle, request, .sending⟩] } := by
  have hmade : ∀ {k call}, (v.calls ++ [(⟨handle, request, .sending⟩ : Call)])[k]? = some call →
      v.call? k = some call ∨ (call = ⟨handle, request, .sending⟩ ∧ v.call? k = none) := by
    intro k call hcall
    rw [List.getElem?_append] at hcall
    split at hcall
    · exact .inl hcall
    · next hge =>
      exact .inr ⟨List.mem_singleton.1 (List.mem_of_getElem? hcall),
        List.getElem?_eq_none (Nat.le_of_not_lt hge)⟩
  refine ⟨fun k call hcall => ⟨call, ?_, rfl⟩, Nat.le_refl _, fun h {k call} hcall hopen => ?_,
    fun ht => ⟨ht, rfl⟩, fun ht => .inl ⟨ht, id⟩, fun {k call} hcall => ?_⟩
  · exact (List.getElem?_append_left (List.getElem?_eq_some_iff.1 hcall).1).trans hcall
  · rcases hmade hcall with hold | ⟨rfl, -⟩
    · exact h hold hopen
    · exact hheld
  · rcases hmade hcall with hold | ⟨rfl, hnone⟩
    · exact .inl hold
    · exact .inr (.inl ⟨rfl, hnone⟩)

/-- A deed leaves the owner idle, or a call is accepted, or the oldest call is served. -/
theorem step_cases (h : v.step deed = some v') :
    (deed.accepted? = none ∧ deed.serving? = none ∧ Idle v v') ∨
    (∃ k call, deed = .accept k ∧ v.call? k = some call ∧ call.state = .sending ∧
      v.owner.isRunning = true ∧ v.queue.length < capacity ∧
      v' = { v.put k .waiting with queue := v.queue ++ [k] }) ∨
    ∃ serving t k rest call answer u, deed = .serve serving ∧ v.owner = .running t ∧
      v.queue = k :: rest ∧ v.call? k = some call ∧
      t.serve? serving call.request = some (answer, u) ∧
      v' = { v.reply k answer with owner := .running u, queue := rest } := by
  cases deed with
  | clone i =>
    obtain ⟨hheld, hv'⟩ := Option.ite_none_right_eq_some.1 h
    cases hv'
    refine .inl ⟨rfl, rfl, .refl v, Nat.le_refl _, fun h {k call} hcall hopen => ?_,
      fun ht => ⟨ht, rfl⟩, fun ht => .inl ⟨ht, fun hno => ?_⟩, .inl⟩
    · exact List.mem_cons_of_mem _ (h hcall hopen)
    · exact absurd hheld (hno ▸ List.not_mem_nil)
  | drop i =>
    obtain ⟨⟨-, hfree⟩, hv'⟩ := Option.ite_none_right_eq_some.1 h
    cases hv'
    refine .inl ⟨rfl, rfl, .refl v, Nat.le_refl _, fun h {k call} hcall hopen => ?_,
      fun ht => ⟨ht, rfl⟩, fun ht => .inl ⟨ht, fun hno => List.erase_eq_nil_iff.2 (.inl hno)⟩, .inl⟩
    exact (List.mem_erase_of_ne (hfree call (List.mem_of_getElem? hcall) hopen)).2 (h hcall hopen)
  | call i request =>
    obtain ⟨hheld, hv'⟩ := Option.ite_none_right_eq_some.1 h
    cases hv'
    exact .inl ⟨rfl, rfl, idle_call hheld request⟩
  | accept k =>
    unfold step at h
    dsimp only at h
    split at h
    · next hsending =>
      obtain ⟨call, hcall, hstate⟩ := Option.map_eq_some_iff.1 hsending
      obtain ⟨⟨hrunning, hroom⟩, hv'⟩ := Option.ite_none_right_eq_some.1 h
      cases hv'
      exact .inr (.inl ⟨k, call, rfl, hcall, hstate, hrunning, hroom, rfl⟩)
    · cases h
  | abandon k =>
    obtain ⟨-, hv'⟩ := Option.ite_none_right_eq_some.1 h
    cases hv'
    exact .inl ⟨rfl, rfl, idle_put rfl (.inl rfl)⟩
  | refuse k =>
    obtain ⟨⟨hopen, hended⟩, hv'⟩ := Option.ite_none_right_eq_some.1 h
    cases hv'
    exact .inl ⟨rfl, rfl, idle_put rfl (.inr ⟨rfl, Bool.eq_false_iff.2 hended, hopen⟩)⟩
  | serve serving =>
    unfold step at h
    dsimp only at h
    split at h
    · next t k rest ht hqueue =>
      obtain ⟨call, hcall, h⟩ := Option.bind_eq_some_iff.1 h
      obtain ⟨⟨answer, u⟩, hserve, hv'⟩ := Option.bind_eq_some_iff.1 h
      cases hv'
      exact .inr (.inr ⟨serving, t, k, rest, call, answer, u, rfl, ht, hqueue, hcall, hserve, rfl⟩)
    · cases h
  | finish =>
    unfold step at h
    dsimp only at h
    split at h
    · next t ht =>
      obtain ⟨⟨hhandles, hqueue⟩, hv'⟩ := Option.ite_none_right_eq_some.1 h
      cases hv'
      refine .inl ⟨rfl, rfl, .refl v, Nat.le_refl _, fun h => h, nofun, fun ht' => ?_, .inl⟩
      cases ht'
      exact .inr ⟨ht, hqueue, hhandles⟩
    · cases h
  | stop =>
    unfold step at h
    dsimp only at h
    split at h
    · cases h
      exact .inl ⟨rfl, rfl, .refl v, Nat.zero_le _, fun h => h, nofun, nofun, .inl⟩
    · cases h

theorem keeps_step (h : v.step deed = some v') : v.Keeps v' := by
  rcases step_cases h with ⟨-, -, I⟩ | ⟨k, call, -, -, -, -, -, rfl⟩ |
    ⟨-, -, k, -, -, -, -, -, -, -, -, -, rfl⟩
  · exact I.keeps
  · exact v.keeps_put k _
  · exact v.keeps_reply k _

theorem keeps_run (h : v.run more = some w) : v.Keeps w := by
  induction more generalizing v with
  | nil =>
    cases h
    exact .refl _
  | cons deed rest ih =>
    obtain ⟨v', hv', hrest⟩ := Option.bind_eq_some_iff.1 h
    intro k call hcall
    obtain ⟨call', hcall', hrequest'⟩ := keeps_step hv' k call hcall
    obtain ⟨call'', hcall'', hrequest''⟩ := ih hrest k call' hcall'
    exact ⟨call'', hcall'', hrequest''.trans hrequest'⟩

end Service

end RuleNet
