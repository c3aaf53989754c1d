/-
  A shared session is used as if by one client.

  Whatever its clients do and in whatever order, the calls that the channel accepts are served once each,
  in the order in which they were accepted. Each one is served with readings of the clock of its own; a
  call for a firing cycle that does not end is not served.

  * `Session.serve?_unique`: what is answered depends on the readings and not on the steps.
  * `Service.Linear`: the session and all answers are those of the accepted calls, made one after the
    other.
  * `Service.Linear.step`, `Service.Linear.run`: so it is after every deed, and after all of them.
  * `Service.Reliable`: what was accepted can be served if its firing cycles end, and calls learn if they
    get no answer.
  * `Service.linear_of_run`: both hold of every service that clients lead to.
  * `Service.ask_alone`: a client that is alone asks a mailbox.
-/
import RuleNet.Proofs.Session.Cycle
import RuleNet.Proofs.Session.Deeds

namespace RuleNet

/-! ## Requests in a row -/

namespace Session

variable {s t u : Session} {serving : Serving} {request : Request} {readings : List Moment}
  {answer : Except EngineError Answer} {answers : List (Except EngineError Answer)}
  {past rest : List (Serving × Request)}

/-- A firing cycle is answered if it ends within its steps. -/
theorem serve?_fire {limit : Option Nat} : s.serve? serving (.fire limit) = some (answer, t) ↔
    ∃ outcome rest fired, Clocked.fireWithin ⟨s, serving.readings⟩ serving.steps limit =
      (outcome, ⟨t, rest⟩) ∧ outcome.answer? = some fired ∧ answer = fired.map .fired := by
  constructor
  · intro h
    obtain ⟨fired, hfired, hanswer⟩ := Option.map_eq_some_iff.1 h
    obtain ⟨rfl, rfl⟩ := Prod.mk.inj hanswer
    exact ⟨_, _, fired, rfl, hfired, rfl⟩
  · rintro ⟨outcome, rest, fired, hfire, hfired, rfl⟩
    exact Option.map_eq_some_iff.2 ⟨fired, (congrArg (·.1.answer?) hfire).trans hfired,
      congrArg (fun r => (fired.map Answer.fired, r.2.session)) hfire⟩

/-- Only a firing cycle may not end, or needs more steps than it is given. -/
theorem serve?_cases (s : Session) (serving : Serving) (request : Request) :
    (∃ limit, request = .fire limit) ∨ ∀ steps, s.serve? ⟨steps, serving.readings⟩ request =
      some ((⟨s, serving.readings⟩ : Clocked).look.session.serve request) := by
  cases request with
  | fire limit => exact .inl ⟨limit, rfl⟩
  | insert fact => exact .inr fun _ => rfl
  | update i fact => exact .inr fun _ => rfl
  | retract i => exact .inr fun _ => rfl
  | look i => exact .inr fun _ => rfl
  | setFocus group => exact .inr fun _ => rfl
  | popFocus => exact .inr fun _ => rfl
  | query name params => exact .inr fun _ => rfl
  | advance span => exact .inr fun _ => rfl
  | counts => exact .inr fun _ => rfl

/-- More steps change nothing. -/
theorem serve?_of_le {steps more : Nat} (h : s.serve? ⟨steps, readings⟩ request = some (answer, t))
    (hle : steps ≤ more) : s.serve? ⟨more, readings⟩ request = some (answer, t) := by
  rcases s.serve?_cases ⟨steps, readings⟩ request with ⟨limit, rfl⟩ | hall
  · obtain ⟨outcome, rest, fired, hfire, hfired, rfl⟩ := serve?_fire.1 h
    have hmore := Clocked.fireWithin_of_le hfire (FireOutcome.ne_unfinished hfired) hle
    exact serve?_fire.2 ⟨outcome, rest, fired, hmore, hfired, rfl⟩
  · exact (hall more).trans ((hall steps).symm.trans h)

/-- What is answered does not depend on how many steps there were. -/
theorem serve?_unique {steps steps' : Nat} {answer' : Except EngineError Answer}
    (h : s.serve? ⟨steps, readings⟩ request = some (answer, t))
    (h' : s.serve? ⟨steps', readings⟩ request = some (answer', u)) : answer' = answer ∧ u = t := by
  have hmost := serve?_of_le h (Nat.le_max_left steps steps')
  rw [serve?_of_le h' (Nat.le_max_right steps steps')] at hmost
  exact Prod.mk.inj (Option.some.inj hmost)

/-- Whatever the clock shows, every request can be answered but one for a firing cycle without a limit. -/
theorem serve?_of_ne (s : Session) (readings : List Moment) (h : request ≠ .fire none) :
    ∃ steps answer t, s.serve? ⟨steps, readings⟩ request = some (answer, t) := by
  rcases s.serve?_cases ⟨0, readings⟩ request with ⟨limit, rfl⟩ | hall
  · cases limit with
    | none => exact absurd rfl h
    | some most =>
      obtain ⟨fired, hfired⟩ := Clocked.fireWithin_limited ⟨s, readings⟩ (Nat.lt_succ_self most)
      obtain ⟨⟨outcome, t, rest⟩, hfire⟩ :
        ∃ r, Clocked.fireWithin ⟨s, readings⟩ (most + 1) (some most) = r := ⟨_, rfl⟩
      rw [hfire] at hfired
      exact ⟨most + 1, fired.map .fired, t, serve?_fire.2 ⟨outcome, rest, fired, hfire, hfired, rfl⟩⟩
  · exact ⟨0, _, _, hall 0⟩

/-- Where the clock stands still, a mailbox gives the same answer, if the cycle ends in time. -/
theorem serve_of_serve? (h : s.serve? ⟨endless, []⟩ request = some (answer, t)) :
    s.serve request = (answer, t) := by
  rcases s.serve?_cases ⟨endless, []⟩ request with ⟨limit, rfl⟩ | hall
  · obtain ⟨outcome, rest, fired, hfire, hfired, rfl⟩ := serve?_fire.1 h
    dsimp only at hfire
    rw [Clocked.fireWithin_still] at hfire
    obtain ⟨houtcome, hleft⟩ := Prod.mk.inj hfire
    have hall := fireAll_of_fireWithin (Prod.ext houtcome (Clocked.mk.inj hleft).1) hfired
    exact congrArg (fun r : Except EngineError Nat × Session => (r.1.map Answer.fired, r.2)) hall
  · exact Option.some.inj ((hall endless).symm.trans h)

/-- The first of several requests is answered, and then the others. -/
theorem serveAll?_cons : s.serveAll? ((serving, request) :: rest) = some (answers, u) ↔
    ∃ answer t more, s.serve? serving request = some (answer, t) ∧
      t.serveAll? rest = some (more, u) ∧ answers = answer :: more := by
  constructor
  · intro h
    obtain ⟨⟨answer, t⟩, hserve, h⟩ := Option.bind_eq_some_iff.1 h
    obtain ⟨⟨more, u⟩, hrest, h⟩ := Option.bind_eq_some_iff.1 h
    cases h
    exact ⟨answer, t, more, hserve, hrest, rfl⟩
  · rintro ⟨answer, t, more, hserve, hrest, rfl⟩
    exact Option.bind_eq_some_iff.2 ⟨(answer, t), hserve,
      Option.bind_eq_some_iff.2 ⟨(more, u), hrest, rfl⟩⟩

/-- One more request is answered at the end. -/
theorem serveAll?_snoc (h : s.serveAll? past = some (answers, t))
    (hserve : t.serve? serving request = some (answer, u)) :
    s.serveAll? (past ++ [(serving, request)]) = some (answers ++ [answer], u) := by
  induction past generalizing s answers with
  | nil =>
    cases h
    exact serveAll?_cons.2 ⟨answer, u, [], hserve, rfl, rfl⟩
  | cons first rest ih =>
    obtain ⟨earlier, t', more, hfirst, hrest, rfl⟩ := serveAll?_cons.1 h
    exact serveAll?_cons.2 ⟨earlier, t', more ++ [answer], hfirst, ih hrest, rfl⟩

/-- Whatever the clock shows, requests in order can be answered if none is for a firing cycle without a
    limit. -/
theorem serveAll?_of_ne {requests : List Request} (h : ∀ request ∈ requests, request ≠ .fire none)
    (s : Session) {readings : List (List Moment)} (hlength : readings.length = requests.length) :
    ∃ (servings : List Serving) (answers : List (Except EngineError Answer)) (t : Session),
      servings.map Serving.readings = readings ∧
      s.serveAll? (servings.zip requests) = some (answers, t) := by
  induction requests generalizing s readings with
  | nil => exact ⟨[], [], s, (List.length_eq_zero_iff.1 hlength).symm, rfl⟩
  | cons request requests ih =>
    obtain ⟨first, others, rfl⟩ := List.exists_cons_of_length_eq_add_one hlength
    obtain ⟨hrequest, hrequests⟩ := List.forall_mem_cons.1 h
    obtain ⟨steps, answer, t, hserve⟩ := s.serve?_of_ne first hrequest
    obtain ⟨servings, answers, u, rfl, hrest⟩ := ih hrequests t (Nat.succ.inj hlength)
    exact ⟨⟨steps, first⟩ :: servings, answer :: answers, u, rfl,
      serveAll?_cons.2 ⟨answer, t, answers, hserve, hrest, rfl⟩⟩

end Session

namespace Service

variable {s : Session} {v v' w : Service} {deeds more : List Deed} {deed : Deed} {k : Nat}

/-! ## One after the other -/

/-- What the first calls that were served have asked for, and how they were served. -/
def past (v : Service) (deeds : List Deed) (n : Nat) : List (Serving × Request) :=
  ((Deed.servings deeds).take n).zip (v.requests ((Deed.accepted deeds).take n))

/-- One more call is served. -/
theorem past_succ {call : Call} {serving : Serving} {n : Nat}
    (hmade : ∀ k ∈ Deed.accepted deeds, ∃ call, v.call? k = some call)
    (hk : (Deed.accepted deeds)[n]? = some k) (hserving : (Deed.servings deeds)[n]? = some serving)
    (hcall : v.call? k = some call) :
    v.past deeds (n + 1) = v.past deeds n ++ [(serving, call.request)] := by
  have hlength : ((Deed.servings deeds).take n).length =
      (v.requests ((Deed.accepted deeds).take n)).length := by
    rw [length_requests fun k hk => hmade k (List.mem_of_mem_take hk),
      List.length_take_of_le (Nat.le_of_lt (List.getElem?_eq_some_iff.1 hserving).1),
      List.length_take_of_le (Nat.le_of_lt (List.getElem?_eq_some_iff.1 hk).1)]
  rw [past, past, List.take_add_one, List.take_add_one, hk, hserving, requests_append,
    List.zip_append hlength, Option.toList_some, Option.toList_some, requests_cons hcall]
  rfl

/-- Where all calls have been served that were accepted, nothing is left out. -/
theorem past_all (h : Deed.served deeds = (Deed.accepted deeds).length) :
    v.past deeds (Deed.served deeds) =
      (Deed.servings deeds).zip (v.requests (Deed.accepted deeds)) := by
  rw [past, h, List.take_length, List.take_of_length_le (Nat.le_of_eq h)]

/-- What the session answers to a call after all calls that were accepted before. -/
def Answers (s : Session) (deeds : List Deed) (v : Service) (k : Nat) (request : Request)
    (answer : Except EngineError Answer) : Prop :=
  ∃ n serving answers t u, (Deed.accepted deeds)[n]? = some k ∧
    (Deed.servings deeds)[n]? = some serving ∧ s.serveAll? (v.past deeds n) = some (answers, t) ∧
    t.serve? serving request = some (answer, u)

/-- The session and the answers are those of the accepted calls, served one after the other. -/
structure Linear (s : Session) (deeds : List Deed) (v : Service) : Prop where
  /-- No call is accepted twice. -/
  nodup : (Deed.accepted deeds).Nodup
  made : ∀ k ∈ Deed.accepted deeds, ∃ call, v.call? k = some call
  served : Deed.served deeds ≤ (Deed.accepted deeds).length
  /-- The channel is never overfull. -/
  room : v.queue.length ≤ capacity
  /-- A call that is open is made through a handle that a client holds. -/
  held : ∀ {k call}, v.call? k = some call → call.state.isOpen = true → call.handle ∈ v.handles
  /-- The session is what the calls that have been served make of it, and the others are in the
      channel. -/
  running : ∀ {t}, v.owner = .running t →
    (∃ answers, s.serveAll? (v.past deeds (Deed.served deeds)) = some (answers, t)) ∧
      v.queue = (Deed.accepted deeds).drop (Deed.served deeds)
  /-- The session that is given back is what all accepted calls make of it. -/
  finished : ∀ {t}, v.owner = .finished t → v.handles = [] ∧
    Deed.served deeds = (Deed.accepted deeds).length ∧
    ∃ answers, s.serveAll? ((Deed.servings deeds).zip (v.requests (Deed.accepted deeds))) =
      some (answers, t)
  sending : ∀ {k call}, v.call? k = some call → call.state = .sending → k ∉ Deed.accepted deeds
  waiting : ∀ {k call}, v.call? k = some call → call.state = .waiting →
    k ∈ (Deed.accepted deeds).drop (Deed.served deeds)
  /-- An answer is what the session answers after all calls that were accepted before; or the call was
      not served, and the owner runs no more. -/
  answered : ∀ {k call answer}, v.call? k = some call → call.state = .answered answer →
    Answers s deeds v k call.request answer ∨
    (answer = .error .sessionClosed ∧ v.owner.isRunning = false ∧
      k ∉ (Deed.accepted deeds).take (Deed.served deeds))

namespace Linear

theorem opened (s : Session) : Linear s [] (.opened s) where
  nodup := List.nodup_nil
  made := nofun
  served := Nat.le_refl 0
  room := Nat.zero_le capacity
  held := nofun
  running h := by
    cases h
    exact ⟨⟨[], rfl⟩, rfl⟩
  finished := nofun
  sending := nofun
  waiting := nofun
  answered := nofun

/-! What has been accepted goes by what calls ask for, which they keep. -/

theorem made_of_keeps (L : Linear s deeds v) (hkeeps : v.Keeps v') :
    ∀ k ∈ Deed.accepted deeds, ∃ call, v'.call? k = some call := fun k hk => by
  obtain ⟨call, hcall⟩ := L.made k hk
  obtain ⟨call', hcall', -⟩ := hkeeps k call hcall
  exact ⟨call', hcall'⟩

/-- What has been served stays as it was, whatever else is accepted or served. -/
theorem past_of_keeps (L : Linear s deeds v) (hkeeps : v.Keeps v') {ks : List Nat}
    {servings : List Serving} (haccepted : Deed.accepted more = Deed.accepted deeds ++ ks)
    (hservings : Deed.servings more = Deed.servings deeds ++ servings) {n : Nat}
    (hn : n ≤ Deed.served deeds) : v'.past more n = v.past deeds n := by
  rw [past, past, hservings, haccepted, List.take_append_of_le_length hn,
    List.take_append_of_le_length (Nat.le_trans hn L.served),
    hkeeps.requests fun k hk => L.made k (List.mem_of_mem_take hk)]

/-- So does what has been answered. -/
theorem answers_of_keeps (L : Linear s deeds v) (hkeeps : v.Keeps v') {ks : List Nat}
    {servings : List Serving} (haccepted : Deed.accepted more = Deed.accepted deeds ++ ks)
    (hservings : Deed.servings more = Deed.servings deeds ++ servings) {request : Request}
    {answer : Except EngineError Answer} (h : Answers s deeds v k request answer) :
    Answers s more v' k request answer := by
  obtain ⟨n, serving, answers, t, u, hk, hserving, hpast, hanswer⟩ := h
  have hn : n < Deed.served deeds := (List.getElem?_eq_some_iff.1 hserving).1
  refine ⟨n, serving, answers, t, u, ?_, ?_, ?_, hanswer⟩
  · rw [haccepted, List.getElem?_append_left (Nat.lt_of_lt_of_le hn L.served), hk]
  · rw [hservings, List.getElem?_append_left hn, hserving]
  · rw [L.past_of_keeps hkeeps haccepted hservings (Nat.le_of_lt hn), hpast]

/-- A call that is open has not been served. -/
theorem not_served_of_open (L : Linear s deeds v) (ho : v.isOpen k = true) :
    k ∉ (Deed.accepted deeds).take (Deed.served deeds) := fun hk => by
  obtain ⟨call, hcall, hopen⟩ := isOpen_iff.1 ho
  cases hstate : call.state with
  | sending => exact L.sending hcall hstate (List.mem_of_mem_take hk)
  | waiting => exact List.disjoint_take_drop L.nodup (Nat.le_refl _) hk (L.waiting hcall hstate)
  | answered answer =>
    rw [hstate] at hopen
    cases hopen
  | abandoned =>
    rw [hstate] at hopen
    cases hopen

/-- Where the owner is idle, no answer is given but that the session is closed. -/
theorem idle (L : Linear s deeds v) (ha : deed.accepted? = none) (hs : deed.serving? = none)
    (I : Idle v v') : Linear s (deeds ++ [deed]) v' := by
  have hmore : Deed.accepted (deeds ++ [deed]) = Deed.accepted deeds ++ [] := by
    rw [Deed.accepted_snoc, ha]
    rfl
  have hservings : Deed.servings (deeds ++ [deed]) = Deed.servings deeds ++ [] := by
    rw [Deed.servings_snoc, hs]
    rfl
  have haccepted := hmore.trans (List.append_nil _)
  have hserved : Deed.served (deeds ++ [deed]) = Deed.served deeds := by
    rw [Deed.served_snoc, hs]
    rfl
  constructor
  case nodup => exact haccepted ▸ L.nodup
  case made => exact haccepted ▸ L.made_of_keeps I.keeps
  case served => exact haccepted ▸ hserved ▸ L.served
  case room => exact Nat.le_trans I.queue L.room
  case held => exact I.held L.held
  case running =>
    intro t ht
    obtain ⟨hv, hq⟩ := I.running ht
    rw [L.past_of_keeps I.keeps hmore hservings (Nat.le_of_eq hserved), haccepted, hserved, hq]
    exact L.running hv
  case finished =>
    intro t ht
    rw [haccepted, hserved, hservings, List.append_nil, I.keeps.requests L.made]
    rcases I.finished ht with ⟨hv, hhandles⟩ | ⟨hv, hempty, hhandles⟩
    · exact ⟨hhandles (L.finished hv).1, (L.finished hv).2⟩
    · obtain ⟨ht, hq⟩ := L.running hv
      have hlast : Deed.served deeds = (Deed.accepted deeds).length :=
        Nat.le_antisymm L.served (List.drop_eq_nil_iff.1 (hq.symm.trans hempty))
      exact ⟨hhandles, hlast, past_all hlast ▸ ht⟩
  case sending =>
    intro k call hcall hsending hk
    rw [haccepted] at hk
    rcases I.calls hcall with hv | ⟨-, hv⟩ | hv | ⟨hv, -⟩
    · exact L.sending hv hsending hk
    · obtain ⟨call', hcall'⟩ := L.made k hk
      rw [hv] at hcall'
      cases hcall'
    · rw [hv] at hsending
      cases hsending
    · rw [hv] at hsending
      cases hsending
  case waiting =>
    intro k call hcall hwaiting
    rw [haccepted, hserved]
    rcases I.calls hcall with hv | ⟨hv, -⟩ | hv | ⟨hv, -⟩
    · exact L.waiting hv hwaiting
    all_goals
      rw [hv] at hwaiting
      cases hwaiting
  case answered =>
    intro k call answer hcall hanswer
    rw [haccepted, hserved]
    rcases I.calls hcall with hv | ⟨hv, -⟩ | hv | ⟨hv, hr, ho⟩
    · rcases L.answered hv hanswer with hanswers | ⟨heq, hr, hk⟩
      · exact .inl (L.answers_of_keeps I.keeps hmore hservings hanswers)
      · exact .inr ⟨heq, I.ended hr, hk⟩
    · rw [hv] at hanswer
      cases hanswer
    · rw [hv] at hanswer
      cases hanswer
    · rw [hv] at hanswer
      cases hanswer
      exact .inr ⟨rfl, I.ended hr, L.not_served_of_open ho⟩

/-- A call is accepted: it goes to the end of the channel. -/
theorem accept (L : Linear s deeds v) {call : Call} (hcall : v.call? k = some call)
    (hsending : call.state = .sending) (hrunning : v.owner.isRunning = true)
    (hroom : v.queue.length < capacity) :
    Linear s (deeds ++ [.accept k]) { v.put k .waiting with queue := v.queue ++ [k] } := by
  obtain ⟨v', hv'⟩ : ∃ v' : Service, { v.put k .waiting with queue := v.queue ++ [k] } = v' := ⟨_, rfl⟩
  have hput : ∀ j, v'.call? j = (v.put k .waiting).call? j := fun j => hv' ▸ rfl
  have hkeeps : v.Keeps v' := fun j c hc => hput j ▸ v.keeps_put k .waiting j c hc
  have hno : k ∉ Deed.accepted deeds := L.sending hcall hsending
  have hdrop : (Deed.accepted deeds ++ [k]).drop (Deed.served deeds) =
      (Deed.accepted deeds).drop (Deed.served deeds) ++ [k] :=
    List.drop_append_of_le_length L.served
  have haccepted : Deed.accepted (deeds ++ [.accept k]) = Deed.accepted deeds ++ [k] :=
    Deed.accepted_snoc deeds _
  have hservings : Deed.servings (deeds ++ [.accept k]) = Deed.servings deeds ++ [] :=
    Deed.servings_snoc deeds _
  have hserved : Deed.served (deeds ++ [.accept k]) = Deed.served deeds :=
    Deed.served_snoc deeds _
  rw [hv']
  constructor
  case nodup =>
    rw [haccepted]
    exact List.nodup_append.2 ⟨L.nodup, List.pairwise_singleton _ k, fun a ha b hb =>
      fun heq => hno (List.mem_singleton.1 hb ▸ heq ▸ ha)⟩
  case made =>
    intro j hj
    rw [haccepted, List.mem_append, List.mem_singleton] at hj
    rcases hj with hj | rfl
    · exact L.made_of_keeps hkeeps j hj
    · obtain ⟨c', hc', -⟩ := hkeeps j call hcall
      exact ⟨c', hc'⟩
  case served =>
    rw [haccepted, hserved, List.length_append]
    exact Nat.le_add_right_of_le L.served
  case room =>
    rw [← hv', List.length_append]
    exact hroom
  case held =>
    intro j c hc hopen
    rw [hput] at hc
    rw [← hv']
    rcases call_of_put hc with ⟨rfl, before, hbefore, rfl⟩ | ⟨-, hold⟩
    · obtain rfl := Option.some.inj (hcall.symm.trans hbefore)
      have hheld : call.handle ∈ v.handles := L.held hcall (by rw [hsending]; rfl)
      exact hheld
    · exact L.held hold hopen
  case running =>
    intro t ht
    have ht : v.owner = .running t := by rwa [← hv'] at ht
    obtain ⟨hsession, hqueue⟩ := L.running ht
    rw [L.past_of_keeps hkeeps haccepted hservings (Nat.le_of_eq hserved), haccepted, hserved, hdrop]
    refine ⟨hsession, ?_⟩
    rw [← hv', ← hqueue]
  case finished =>
    intro t ht
    have ht : v.owner = .finished t := by rwa [← hv'] at ht
    rw [ht] at hrunning
    cases hrunning
  case sending =>
    intro j c hc hstate hj
    rw [hput] at hc
    rcases call_of_put hc with ⟨rfl, before, hbefore, rfl⟩ | ⟨hne, hold⟩
    · cases hstate
    · rw [haccepted, List.mem_append, List.mem_singleton] at hj
      rcases hj with hj | rfl
      · exact L.sending hold hstate hj
      · exact hne rfl
  case waiting =>
    intro j c hc hstate
    rw [hput] at hc
    rw [haccepted, hserved, hdrop, List.mem_append, List.mem_singleton]
    rcases call_of_put hc with ⟨rfl, -⟩ | ⟨-, hold⟩
    · exact .inr rfl
    · exact .inl (L.waiting hold hstate)
  case answered =>
    intro j c answer hc hstate
    rw [hput] at hc
    rcases call_of_put hc with ⟨rfl, before, hbefore, rfl⟩ | ⟨-, hold⟩
    · cases hstate
    · rcases L.answered hold hstate with hanswers | ⟨heq, hr, -⟩
      · exact .inl (L.answers_of_keeps hkeeps haccepted hservings hanswers)
      · rw [hrunning] at hr
        cases hr

/-- The oldest call in the channel is the first one that was accepted and has not been served. -/
theorem oldest (L : Linear s deeds v) {t : Session} (ht : v.owner = .running t) {rest : List Nat}
    (hqueue : v.queue = k :: rest) :
    (Deed.accepted deeds)[Deed.served deeds]? = some k ∧
      (Deed.accepted deeds).drop (Deed.served deeds + 1) = rest := by
  have hdrop : (Deed.accepted deeds).drop (Deed.served deeds) = k :: rest :=
    (L.running ht).2.symm.trans hqueue
  refine ⟨?_, ?_⟩
  · rw [← List.head?_drop, hdrop]
    rfl
  · rw [← List.drop_drop, hdrop]
    rfl

/-- The oldest call is served: the session goes on, and a client that still waits gets the answer. -/
theorem serve (L : Linear s deeds v) {t u : Session} (ht : v.owner = .running t) {rest : List Nat}
    (hqueue : v.queue = k :: rest) {call : Call} (hcall : v.call? k = some call) {serving : Serving}
    {answer : Except EngineError Answer}
    (hserve : t.serve? serving call.request = some (answer, u)) :
    Linear s (deeds ++ [.serve serving])
      { v.reply k answer with owner := .running u, queue := rest } := by
  obtain ⟨v', hv'⟩ : ∃ v' : Service,
    { v.reply k answer with owner := .running u, queue := rest } = v' := ⟨_, rfl⟩
  have hreply : ∀ j, v'.call? j = (v.reply k answer).call? j := fun j => hv' ▸ rfl
  have hkeeps : v.Keeps v' := fun j c hc => hreply j ▸ v.keeps_reply k _ j c hc
  obtain ⟨answers, hsession⟩ := (L.running ht).1
  obtain ⟨hat, hrest⟩ := L.oldest ht hqueue
  have hmore : Deed.accepted (deeds ++ [.serve serving]) = Deed.accepted deeds ++ [] :=
    Deed.accepted_snoc deeds _
  have haccepted := hmore.trans (List.append_nil _)
  have hservings : Deed.servings (deeds ++ [.serve serving]) = Deed.servings deeds ++ [serving] :=
    Deed.servings_snoc deeds _
  have hserved : Deed.served (deeds ++ [.serve serving]) = Deed.served deeds + 1 :=
    Deed.served_snoc deeds _
  have hpast : v'.past (deeds ++ [.serve serving]) (Deed.served deeds) =
      v.past deeds (Deed.served deeds) :=
    L.past_of_keeps hkeeps hmore hservings (Nat.le_refl _)
  have hserving : (Deed.servings (deeds ++ [.serve serving]))[Deed.served deeds]? = some serving := by
    rw [hservings, Deed.served, List.getElem?_concat_length]
  have hcalls := fun {j c} (hc : v'.call? j = some c) => call_of_reply hcall (hreply j ▸ hc)
  rw [hv']
  constructor
  case nodup => exact haccepted ▸ L.nodup
  case made => exact haccepted ▸ L.made_of_keeps hkeeps
  case served =>
    rw [haccepted, hserved]
    exact (List.getElem?_eq_some_iff.1 hat).1
  case room =>
    have hroom := L.room
    rw [hqueue, List.length_cons] at hroom
    rw [← hv']
    exact Nat.le_of_succ_le hroom
  case held =>
    intro j c hc hopen
    have hhandles : v'.handles = v.handles := by
      rw [← hv']
      exact v.handles_reply k _
    rw [hhandles]
    rcases hcalls hc with ⟨hold, -⟩ | ⟨-, rfl⟩
    · exact L.held hold hopen
    · cases hopen
  case running =>
    intro t' ht'
    rw [← hv'] at ht'
    cases ht'
    obtain ⟨call', hcall', hrequest⟩ := hkeeps k call hcall
    have hlast := past_succ (haccepted ▸ L.made_of_keeps hkeeps) (haccepted ▸ hat) hserving hcall'
    rw [hpast, hrequest] at hlast
    rw [haccepted, hserved, hrest, hlast, ← hv']
    exact ⟨⟨answers ++ [answer], Session.serveAll?_snoc hsession hserve⟩, rfl⟩
  case finished =>
    intro t' ht'
    rw [← hv'] at ht'
    cases ht'
  case sending =>
    intro j c hc hstate
    rw [haccepted]
    rcases hcalls hc with ⟨hold, -⟩ | ⟨-, rfl⟩
    · exact L.sending hold hstate
    · cases hstate
  case waiting =>
    intro j c hc hstate
    rw [haccepted, hserved, hrest]
    rcases hcalls hc with ⟨hold, hno⟩ | ⟨-, rfl⟩
    · have hj := L.waiting hold hstate
      rw [← (L.running ht).2, hqueue] at hj
      exact (List.mem_cons.1 hj).resolve_left fun e => hno e hstate
    · cases hstate
  case answered =>
    intro j c given hc hstate
    rcases hcalls hc with ⟨hold, -⟩ | ⟨rfl, rfl⟩
    · rcases L.answered hold hstate with hanswers | ⟨-, hr, -⟩
      · exact .inl (L.answers_of_keeps hkeeps hmore hservings hanswers)
      · rw [ht] at hr
        cases hr
    · cases hstate
      exact .inl ⟨Deed.served deeds, serving, answers, t, u, haccepted ▸ hat, hserving,
        hpast ▸ hsession, hserve⟩

/-- So it is after every deed. -/
theorem step (L : Linear s deeds v) (h : v.step deed = some v') : Linear s (deeds ++ [deed]) v' := by
  rcases step_cases h with ⟨ha, hs, I⟩ | ⟨k, call, rfl, hcall, hstate, hrunning, hroom, rfl⟩ |
    ⟨serving, t, k, rest, call, answer, u, rfl, ht, hqueue, hcall, hserve, rfl⟩
  · exact L.idle ha hs I
  · exact L.accept hcall hstate hrunning hroom
  · exact L.serve ht hqueue hcall hserve

/-- So it is after deeds in a row. -/
theorem run (L : Linear s deeds v) (h : v.run more = some w) : Linear s (deeds ++ more) w := by
  induction more generalizing v deeds with
  | nil =>
    cases h
    rwa [List.append_nil]
  | cons deed rest ih =>
    obtain ⟨v', hv', hrest⟩ := Option.bind_eq_some_iff.1 h
    rw [List.append_cons]
    exact ih (L.step hv') hrest

/-- What is in the channel can be served, if it can be answered one after the other. -/
theorem drain (L : Linear s deeds v) {t u : Session} (ht : v.owner = .running t)
    {servings : List Serving} {answers : List (Except EngineError Answer)}
    (hlength : servings.length = v.queue.length)
    (h : t.serveAll? (servings.zip (v.requests v.queue)) = some (answers, u)) :
    ∃ w, v.run (servings.map .serve) = some w ∧ w.owner = .running u ∧ w.queue = [] ∧
      w.handles = v.handles := by
  induction servings generalizing v t deeds answers with
  | nil =>
    have hempty := List.length_eq_zero_iff.1 hlength.symm
    cases h
    exact ⟨v, rfl, ht, hempty, rfl⟩
  | cons serving servings ih =>
    obtain ⟨k, rest, hqueue⟩ := List.exists_cons_of_length_eq_add_one hlength.symm
    have hmade : ∀ j ∈ k :: rest, ∃ call, v.call? j = some call := fun j hj =>
      L.made j (List.mem_of_mem_drop ((L.running ht).2 ▸ hqueue ▸ hj))
    obtain ⟨⟨call, hcall⟩, hrest⟩ := List.forall_mem_cons.1 hmade
    rw [hqueue, requests_cons hcall] at h
    obtain ⟨answer, t', more, hserve, hmore, -⟩ := Session.serveAll?_cons.1 h
    obtain ⟨v', hv'⟩ : ∃ v' : Service,
      { v.reply k answer with owner := .running t', queue := rest } = v' := ⟨_, rfl⟩
    have hstep : v.step (.serve serving) = some v' := by
      rw [← hv', Service.step, ht, hqueue]
      exact Option.bind_eq_some_iff.2 ⟨call, hcall,
        Option.bind_eq_some_iff.2 ⟨(answer, t'), hserve, rfl⟩⟩
    have hqueue' : v'.queue = rest := by rw [← hv']
    have hmore' : t'.serveAll? (servings.zip (v'.requests v'.queue)) = some (more, u) := by
      rw [hqueue', (keeps_step hstep).requests hrest]
      exact hmore
    rw [hqueue] at hlength
    obtain ⟨w, hw, howner, hempty, hhandles⟩ :=
      ih (L.step hstep) (by rw [← hv']) (hqueue' ▸ Nat.succ.inj hlength) hmore'
    refine ⟨w, ?_, howner, hempty, hhandles.trans ?_⟩
    · rw [List.map_cons, Service.run, hstep]
      exact hw
    · rw [← hv']
      exact v.handles_reply k answer

end Linear

/-! ## After the end -/

/-- Where the owner runs no more, calls that are answered from then on learn that the session is
    closed. -/
theorem closed_step (hv : v.owner.isRunning = false) (h : v.step deed = some v') :
    v'.owner.isRunning = false ∧ ∀ k call answer, v'.call? k = some call →
      call.state = .answered answer → v.call? k = some call ∨ answer = .error .sessionClosed := by
  rcases step_cases h with ⟨-, -, I⟩ | ⟨k, call, -, -, -, hrunning, -⟩ |
    ⟨-, t, -, -, -, -, -, -, ht, -⟩
  · refine ⟨I.ended hv, fun k call answer hcall hanswer => ?_⟩
    rcases I.calls hcall with hold | ⟨hs, -⟩ | hs | ⟨hs, -⟩
    · exact .inl hold
    all_goals
      rw [hs] at hanswer
      cases hanswer
    exact .inr rfl
  · rw [hrunning] at hv
    cases hv
  · rw [ht] at hv
    cases hv

theorem closed_run (hv : v.owner.isRunning = false) (h : v.run more = some w) :
    ∀ k call answer, w.call? k = some call → call.state = .answered answer →
      v.call? k = some call ∨ answer = .error .sessionClosed := by
  induction more generalizing v with
  | nil =>
    cases h
    exact fun k call answer hcall _ => .inl hcall
  | cons deed rest ih =>
    obtain ⟨v', hv', hrest⟩ := Option.bind_eq_some_iff.1 h
    obtain ⟨hended, hanswers⟩ := closed_step hv hv'
    intro k call answer hcall hanswer
    rcases ih hended hrest k call answer hcall hanswer with hold | hclosed
    · exact hanswers k call answer hold hanswer
    · exact .inr hclosed

/-! ## Shared sessions -/

/-- What clients can rely on: what has been accepted can be served if it can be answered, the session is
    given back once no handle is left, and a call learns if it gets no answer. -/
structure Reliable (s : Session) (deeds : List Deed) (v : Service) : Prop where
  /-- Without any further deed of a client, all accepted calls are served in their order, if the firing
      cycles among them end, and the session is given back if no handle is left. -/
  drains : ∀ {t u}, v.owner = .running t → ∀ {servings : List Serving}
    {answers : List (Except EngineError Answer)}, servings.length = v.queue.length →
    t.serveAll? (servings.zip (v.requests v.queue)) = some (answers, u) →
    ∃ w, v.run (servings.map .serve) = some w ∧ w.owner = .running u ∧ w.queue = [] ∧
      (∃ answers, s.serveAll? ((Deed.servings deeds ++ servings).zip
        (v.requests (Deed.accepted deeds))) = some (answers, u)) ∧
      (∀ {k call}, w.call? k = some call → call.state ≠ .waiting) ∧
      (v.handles = [] → w.step .finish = some { w with owner := .finished u })
  /-- They do end if all of them have limits, whatever the clock shows meanwhile. -/
  ends : ∀ {t}, v.owner = .running t → (∀ request ∈ v.requests v.queue, request ≠ .fire none) →
    ∀ {readings : List (List Moment)}, readings.length = v.queue.length →
    ∃ (servings : List Serving) (answers : List (Except EngineError Answer)) (u : Session),
      servings.map Serving.readings = readings ∧
      t.serveAll? (servings.zip (v.requests v.queue)) = some (answers, u)
  /-- The oldest call is served just if it can be answered. -/
  serves : ∀ {t k rest}, v.owner = .running t → v.queue = k :: rest →
    ∃ call, v.call? k = some call ∧ ∀ serving,
      (v.step (.serve serving)).isSome = (t.serve? serving call.request).isSome
  /-- Where the owner runs no more, a call that is open can learn so, and learns nothing else. -/
  refuses : v.owner.isRunning = false →
    (∀ {k}, v.isOpen k = true → v.step (.refuse k) = some (v.put k (.answered (.error .sessionClosed)))) ∧
    ∀ {more w}, v.run more = some w → ∀ {k call answer}, w.call? k = some call →
      call.state = .answered answer → v.call? k = some call ∨ answer = .error .sessionClosed

/-- What is in the channel has been asked for. -/
theorem Linear.queued (L : Linear s deeds v) {t : Session} (ht : v.owner = .running t) :
    ∀ k ∈ v.queue, ∃ call, v.call? k = some call := fun k hk =>
  L.made k (List.mem_of_mem_drop ((L.running ht).2 ▸ hk))

/-- The owner serves the oldest call just if the session can answer it. -/
theorem isSome_step_serve {t : Session} (ht : v.owner = .running t) {rest : List Nat}
    (hqueue : v.queue = k :: rest) {call : Call} (hcall : v.call? k = some call) (serving : Serving) :
    (v.step (.serve serving)).isSome = (t.serve? serving call.request).isSome := by
  unfold step
  dsimp only
  rw [ht, hqueue]
  dsimp only
  rw [hcall]
  show ((t.serve? serving call.request).bind _).isSome = _
  cases t.serve? serving call.request with
  | none => rfl
  | some answered => rfl

/-- Whatever clients, channel and owner do, a shared session is used as if by one client that made the
    accepted calls one after the other. -/
theorem linear_of_run (h : (opened s).run deeds = some v) : Linear s deeds v ∧ Reliable s deeds v := by
  have L : Linear s deeds v := (Linear.opened s).run h
  refine ⟨L, fun {t u} ht {servings answers} hlength hserve => ?_,
    fun {t} ht hlimited {readings} hlength => ?_, fun {t k rest} ht hqueue => ?_,
    fun hended => ⟨fun hopen => if_pos ⟨hopen, ?_⟩, fun hrun => closed_run hended hrun _ _ _⟩⟩
  · obtain ⟨w, hw, howner, hempty, hhandles⟩ := L.drain ht hlength hserve
    have L' := L.run hw
    obtain ⟨hsession, hrest⟩ := L'.running howner
    have hall := Nat.le_antisymm L'.served (List.drop_eq_nil_iff.1 (hrest.symm.trans hempty))
    rw [past_all hall, Deed.servings_serve, Deed.accepted_serve, (keeps_run hw).requests L.made]
      at hsession
    refine ⟨w, hw, howner, hempty, hsession, fun hcall hwaiting => ?_, fun hno => ?_⟩
    · have hmem := L'.waiting hcall hwaiting
      rw [← hrest, hempty] at hmem
      cases hmem
    · rw [step, howner]
      exact if_pos ⟨hhandles.trans hno, hempty⟩
  · refine Session.serveAll?_of_ne hlimited _ ?_
    rw [length_requests (L.queued ht), hlength]
  · obtain ⟨call, hcall⟩ := L.queued ht k (hqueue ▸ List.mem_cons_self)
    exact ⟨call, hcall, isSome_step_serve ht hqueue hcall⟩
  · rw [hended]
    exact Bool.false_ne_true

/-- Orders are taken down, and are good for 100 milliseconds. -/
def orderly : Declarations where
  types := [⟨"order", [("id", .integer)], .event, none, some (.ofMillis 100)⟩]
  rules := []
  queries := []

/-- The first client has two orders, and a second one has another one and is faster. The first client
    stops waiting for its second call, which has been accepted and is served all the same. Then it wants
    to withdraw the order of the second client, which has expired in the meantime, and the owner is
    stopped before the last call is served. -/
def orderlyDeeds : List Deed :=
  let order (id : Int64) : Fact := ⟨"order", [("id", .integer id)]⟩
  [.clone 0, .call 0 (.insert (order 1)), .call 0 (.insert (order 2)), .call 1 (.insert (order 3)),
    .accept 2, .accept 1, .abandon 1, .serve ⟨0, [5]⟩, .accept 0, .serve ⟨0, [10]⟩, .drop 1,
    .serve ⟨0, [60]⟩, .call 0 (.retract 1), .accept 3, .serve ⟨0, [120]⟩, .call 0 .counts, .accept 4,
    .stop, .refuse 4]

deriving instance DecidableEq for CallState

/-- What has become of the calls. -/
def orderlyCalls : List CallState := [.answered (.ok (.handle 3)), .abandoned,
  .answered (.ok (.handle 1)), .answered (.error (.unknownHandle 1)),
  .answered (.error .sessionClosed)]

/-- The orders are numbered as the channel accepted them, the first one has expired when it is to be
    withdrawn, and the last call comes to nothing. -/
theorem linear_of_run_orderlyDeeds : ∃ base v, orderly.build = .ok base ∧
    (opened (.start base .standard 0)).run orderlyDeeds = some v ∧
    Linear (.start base .standard 0) orderlyDeeds v ∧
    Reliable (.start base .standard 0) orderlyDeeds v ∧
    Deed.accepted orderlyDeeds = [2, 1, 0, 3, 4] ∧ Deed.served orderlyDeeds = 4 ∧
    v.calls.map Call.state = orderlyCalls := by
  obtain ⟨base, hb, hrun⟩ := Declarations.build_of_passes orderly (fun base =>
    ((opened (.start base .standard 0)).run orderlyDeeds).any fun v : Service =>
      decide (v.calls.map Call.state = orderlyCalls)) (by decide +kernel)
  obtain ⟨v, hv, hcalls⟩ := (Option.any_eq_true _ _).1 hrun
  obtain ⟨L, R⟩ := linear_of_run hv
  exact ⟨base, v, hb, hv, L, R, rfl, rfl, of_decide_eq_true hcalls⟩

/-! ## One client -/

/-- What a client sees of the owner. -/
def mailbox (v : Service) : Mailbox := match v.owner with
  | .running s => .running s
  | .finished _ => .closed
  | .stopped => .closed

/-- The last call. -/
theorem call?_last (v : Service) (call : Call) :
    ({ v with calls := v.calls ++ [call] } : Service).call? v.calls.length = some call := by
  rw [call?, List.getElem?_append_right (Nat.le_refl _), Nat.sub_self]
  rfl

theorem put_last (v : Service) (call : Call) (state : CallState) :
    ({ v with calls := v.calls ++ [call] } : Service).put v.calls.length state =
      { v with calls := v.calls ++ [{ call with state }] } := by
  have hmodify : ∀ (calls : List Call), (calls ++ [call]).modify calls.length ({ · with state }) =
      calls ++ [{ call with state }] := by
    intro calls
    induction calls with
    | nil => rfl
    | cons first rest ih =>
      rw [List.cons_append, List.length_cons, List.modify_succ_cons, ih]
      rfl
  rw [put]
  dsimp only
  rw [hmodify]

/-- A call to an owner that runs no more is refused. -/
theorem run_refuse {handle : Nat} (hheld : handle ∈ v.handles) (hended : v.owner.isRunning = false)
    (request : Request) : v.run [.call handle request, .refuse v.calls.length] = some { v with
      calls := v.calls ++ [⟨handle, request, .answered (.error .sessionClosed)⟩] } := by
  have hcall : v.step (.call handle request) =
      some { v with calls := v.calls ++ [⟨handle, request, .sending⟩] } := if_pos hheld
  have hrefuse : ({ v with calls := v.calls ++ [⟨handle, request, .sending⟩] } : Service).step
      (.refuse v.calls.length) = some { v with
        calls := v.calls ++ [⟨handle, request, .answered (.error .sessionClosed)⟩] } := by
    have hopen : ({ v with calls := v.calls ++ [⟨handle, request, .sending⟩] } : Service).isOpen
        v.calls.length = true := isOpen_iff.2 ⟨_, v.call?_last _, rfl⟩
    rw [step, v.put_last]
    exact if_pos ⟨hopen, by rw [hended]; exact Bool.false_ne_true⟩
  rw [run, hcall, Option.bind_some, run, hrefuse]
  rfl

/-- A call to an owner that runs is served at once if the channel is empty. -/
theorem run_serve {handle : Nat} (hheld : handle ∈ v.handles) (ho : v.owner = .running s)
    (hempty : v.queue = []) {request : Request} {serving : Serving} {answer : Except EngineError Answer}
    {t : Session} (hanswer : s.serve? serving request = some (answer, t)) :
    v.run [.call handle request, .accept v.calls.length, .serve serving] = some { v with
      calls := v.calls ++ [⟨handle, request, .answered answer⟩]
      owner := .running t
      queue := [] } := by
  have hcall : v.step (.call handle request) =
      some { v with calls := v.calls ++ [⟨handle, request, .sending⟩] } := if_pos hheld
  -- the channel holds nothing but this call
  obtain ⟨u, hu⟩ : ∃ u : Service, u = { v with queue := [v.calls.length] } := ⟨_, rfl⟩
  have howner : u.owner = .running s := by rw [hu]; exact ho
  have hqueue : u.queue = [v.calls.length] := by rw [hu]
  have hlast : ∀ state, ({ u with calls := v.calls ++ [⟨handle, request, state⟩] } : Service).call?
      v.calls.length = some ⟨handle, request, state⟩ := fun state => by
    rw [hu]
    exact v.call?_last _
  have haccept : ({ v with calls := v.calls ++ [⟨handle, request, .sending⟩] } : Service).step
      (.accept v.calls.length) = some { u with calls := v.calls ++ [⟨handle, request, .waiting⟩] } := by
    rw [hu, step, v.call?_last, v.put_last, ho, hempty]
    have hroom : Owner.isRunning (.running s) = true ∧ ([] : List Nat).length < capacity :=
      ⟨rfl, by decide⟩
    exact if_pos hroom
  have hreply : ({ u with calls := v.calls ++ [⟨handle, request, .waiting⟩] } : Service).reply
      v.calls.length answer =
      { u with calls := v.calls ++ [⟨handle, request, .answered answer⟩] } := by
    rw [reply, hlast, hu]
    exact ({ v with queue := [v.calls.length] } : Service).put_last _ _
  have hserve : ({ u with calls := v.calls ++ [⟨handle, request, .waiting⟩] } : Service).step
      (.serve serving) = some { u with
        calls := v.calls ++ [⟨handle, request, .answered answer⟩]
        owner := .running t
        queue := [] } := by
    rw [step]
    dsimp only
    rw [howner, hqueue]
    dsimp only
    rw [← howner, ← hqueue, hlast]
    show ((s.serve? serving request).bind _) = _
    rw [hanswer, Option.bind_some, hreply]
  rw [run, hcall, Option.bind_some, run, haccept, Option.bind_some, run, hserve, hu]
  rfl

/-- A client that is alone gets the answer of a mailbox, if a firing cycle that it asks for ends. -/
theorem ask_alone {handle : Nat} (hheld : handle ∈ v.handles) (hempty : v.queue = [])
    {request : Request}
    (hends : ∀ s, v.owner = .running s → (s.serve? ⟨Session.endless, []⟩ request).isSome = true) :
    ∃ deeds w, v.run (.call handle request :: deeds) = some w ∧
      w.mailbox = (v.mailbox.ask request).2 ∧
      w.call? v.calls.length = some ⟨handle, request, .answered (v.mailbox.ask request).1⟩ := by
  have hended : v.owner.isRunning = false → v.mailbox = .closed → ∃ deeds w,
      v.run (.call handle request :: deeds) = some w ∧ w.mailbox = (v.mailbox.ask request).2 ∧
        w.call? v.calls.length = some ⟨handle, request, .answered (v.mailbox.ask request).1⟩ := by
    intro hv hclosed
    refine ⟨_, _, run_refuse hheld hv request, ?_, ?_⟩
    · rw [hclosed]
      exact hclosed
    · rw [hclosed]
      exact v.call?_last _
  cases ho : v.owner with
  | running s =>
    obtain ⟨⟨answer, t⟩, hanswer⟩ := Option.isSome_iff_exists.1 (hends s ho)
    have hasked : v.mailbox.ask request = (answer, .running t) := by
      rw [mailbox, ho, Mailbox.ask, Session.serve_of_serve? hanswer]
    rw [hasked]
    exact ⟨_, _, run_serve hheld ho hempty hanswer, rfl, v.call?_last _⟩
  | finished s => exact hended (by rw [ho]; rfl) (by rw [mailbox, ho])
  | stopped => exact hended (by rw [ho]; rfl) (by rw [mailbox, ho])

end Service

end RuleNet
