import MomRpc.Broker.Theorems.Server

namespace MomRpc

-- A call for a closure returns `Ok` if and only if the payload can be decoded, the closure returns
-- `Ok` for the request, and its response can be encoded.
theorem Handler.call_eq_ok_iff {TReq TResp ω : Type} {fromSlice : Bytes → Except RpcError TReq}
    {toVec : TResp → Except RpcError Bytes} {func : TReq → ω → Outcome TResp}
    {payload bytes : Bytes} {world : ω} :
    (Handler fromSlice toVec func).call payload world = .returned (.ok bytes) ↔
      ∃ req resp, fromSlice payload = .ok req ∧ func req world = .returned (.ok resp) ∧
        toVec resp = .ok bytes := by
  simp only [Handler]
  cases hd : fromSlice payload
  case error  => simp
  case ok req => rcases hf : func req world with (_ | resp) | _ <;> simp [hf]

namespace Server

-- What an accepted envelope asks for: to call the handler with the payload, and to send what it
-- returns to this address under this id.
structure Request (ω : Type) where
  handler       : HandlerFn ω
  payload       : Bytes
  replyTo       : Address
  correlationId : String

variable {ω : Type} {inner : Inner} {s s' : Server ω} {act : Action ω} {as : List (Action ω)}
  {env : Envelope} {method : String} {t : ℕ} {task : HandlerTask ω} {req : Request ω}

-- An envelope is accepted if it has all three fields and its method has a handler.
def Request.ofEnvelope (handlers : String → Option (HandlerFn ω)) (env : Envelope) :
    Option (Request ω) :=
  match env.method, env.replyTo, env.correlationId with
  | some method, some replyTo, some correlationId =>
    (handlers method).map ({ handler := ·, payload := env.payload, replyTo, correlationId })
  | _, _, _ => none

def Request.ofTask (task : HandlerTask ω) : Request ω where
  handler       := task.handler
  payload       := task.payload
  replyTo       := task.replyTo
  correlationId := task.correlationId

def take? : Action ω → Option Envelope
  | .take env => some env
  | _         => none

def dispatch? : Action ω → Option Envelope
  | .dispatch env => some env
  | _             => none

-- The envelopes that the server task has taken from its inbox, and those it is done with.
def takes (as : List (Action ω)) : List Envelope :=
  as.filterMap take?

def dispatches (as : List (Action ω)) : List Envelope :=
  as.filterMap dispatch?

-- The responses handed to `transport.publish`, in the order in which they were.
def publishes (as : List (Action ω)) : List Envelope :=
  as.filterMap fun
    | .handled _ _ answer => answer
    | _                   => none

-- The handler that has last been registered for a method.
def registered (as : List (Action ω)) (method : String) : Option (HandlerFn ω) :=
  as.reverse.findSome? fun
    | .register method' handler => if method' = method then some handler else none
    | _                         => none

-- The requests that are to be served: one for each dispatched envelope that has all three fields
-- and whose method has a handler at that time.
def accepted (as : List (Action ω)) : List (Request ω) :=
  (List.range as.length).filterMap fun (n : ℕ) =>
    match as[n]? with
    | some (.dispatch env) => Request.ofEnvelope (registered (as.take n)) env
    | _                    => none

def endsTask (t : ℕ) (req : Request ω) : Action ω → Option (Outcome Bytes)
  | .handled t' world _ => if t' = t then some (req.handler.call req.payload world) else none
  | _                   => none

-- How the handler called for the `t`-th request has ended, if it has.
def ended (as : List (Action ω)) (t : ℕ) (req : Request ω) : Option (Outcome Bytes) :=
  as.findSome? (endsTask t req)

theorem accepted_concat :
    accepted (as ++ [act]) = accepted as ++
      match act with
      | .dispatch env => (Request.ofEnvelope (registered as) env).toList
      | _             => [] := by
  have h : ∀ n ∈ List.range as.length,
      (as ++ [act])[n]? = as[n]? ∧ (as ++ [act]).take n = as.take n := by
    intro n hn
    have hl := List.mem_range.mp hn
    exact ⟨List.getElem?_append_left hl, List.take_append_of_le_length hl.le⟩
  rw [accepted, List.length_append, List.length_singleton, List.range_succ, List.filterMap_append]
  congr 1
  · refine List.filterMap_congr fun n hn => ?_
    rw [(h n hn).left, (h n hn).right]
  · cases act <;> simp [List.filterMap_cons]
    split <;> simp_all

theorem registered_concat :
    registered (as ++ [act]) method =
      match act with
      | .register method' handler =>
        if method' = method then some handler else registered as method
      | _ => registered as method := by
  rw [registered, List.reverse_append, List.reverse_singleton, List.singleton_append,
    List.findSome?_cons]
  cases act <;> simp [registered]
  split <;> simp_all

theorem ended_concat :
    ended (as ++ [act]) t req = (ended as t req).or (endsTask t req act) := by
  rw [ended, List.findSome?_append, ended]
  cases h : endsTask t req act <;> simp [h]

theorem handlers_eq (r : (machine ω inner).Run as s) : s.handlers = registered as := by
  induction as, s, r using Machine.Run.induction_on
  case init => rfl
  case step as s act s' _ h ih =>
    funext method
    rw [registered_concat, ← ih]
    cases next_step h <;> try rfl
    case register method' handler _ =>
      simp only [Function.update_apply]
      congr 1
      exact propext eq_comm

theorem takes_eq (r : (machine ω inner).Run as s) :
    takes as = dispatches as ++ match s.task with
      | .taken env => [env]
      | _          => [] := by
  induction as, s, r using Machine.Run.induction_on
  case init => cases h : inner.mode.serves <;> simp [machine, init, h, takes, dispatches]
  case step as s act s' _ h ih =>
    rw [takes, dispatches, List.filterMap_concat, List.filterMap_concat, ← takes, ← dispatches, ih]
    cases next_step h <;> simp_all [take?, dispatch?]

theorem accept_fresh {handlers : String → Option (HandlerFn ω)}
    (h : accept handlers env = some task) : task.fresh = task ∧ task.phase = .calling := by
  simp only [accept, Option.bind_eq_bind, Option.bind_eq_some_iff] at h
  obtain ⟨_, _, _, _, _, _, _, _, ht⟩ := h
  cases ht
  exact ⟨rfl, rfl⟩

theorem accept_some {handlers : String → Option (HandlerFn ω)}
    (h : accept handlers env = some task) :
    ∃ method, env.method = some method ∧ handlers method = some task.handler ∧
      env.payload = task.payload ∧ env.correlationId = some task.correlationId := by
  simp only [accept, Option.bind_eq_bind, Option.bind_eq_some_iff] at h
  obtain ⟨method, hm, _, _, _, hc, _, hh, ht⟩ := h
  cases ht
  exact ⟨method, hm, hh, rfl, hc⟩

theorem accept_request {handlers : String → Option (HandlerFn ω)} :
    (accept handlers env).map Request.ofTask = Request.ofEnvelope handlers env := by
  simp only [accept, Request.ofEnvelope]
  cases env.method <;> try rfl
  case some method =>
    cases env.replyTo <;> try rfl
    case some =>
      cases env.correlationId <;> try rfl
      case some => cases hh : handlers method <;> simp [hh, Request.ofTask]

theorem map_request_set {tasks : List (HandlerTask ω)} {phase : HandlerTask.Phase}
    (h : tasks[t]? = some task) :
    (tasks.set t { task with phase }).map Request.ofTask = tasks.map Request.ofTask := by
  refine List.ext_getElem? fun n => ?_
  simp only [List.getElem?_map, List.getElem?_set]
  split
  case isFalse => rfl
  case isTrue hn =>
    subst hn
    have ⟨hl, _⟩ := List.getElem?_eq_some_iff.mp h
    rw [if_pos hl, h]
    rfl

theorem tasks_request (r : (machine ω inner).Run as s) :
    s.tasks.map Request.ofTask = accepted as := by
  induction as, s, r using Machine.Run.induction_on
  case init => rfl
  case step as s act s' r h ih =>
    rw [accepted_concat, ← ih]
    cases next_step h <;> try exact (List.append_nil _).symm
    case dispatch env taken =>
      simp only [List.map_append, handlers_eq r, ← accept_request]
      cases accept (registered as) env <;> rfl
    case handled handle _ _ _ => rw [map_request_set handle, List.append_nil]
    case published handle _   => rw [map_request_set handle, List.append_nil]

theorem ended_of_length_le (r : (machine ω inner).Run as s) (h : s.tasks.length ≤ t) :
    ended as t req = none := by
  induction as, s, r using Machine.Run.induction_on
  case init => rfl
  case step as s act s' r hs ih =>
    rw [ended_concat]
    cases next_step hs
    case dispatch => simp [endsTask, ih (by simp at h; omega)]
    case handled t' _ _ _ handle _ _ _ =>
      have ⟨hl, _⟩ := List.getElem?_eq_some_iff.mp handle
      simp only [List.length_set] at h
      have hne : t' ≠ t := by omega
      simp [endsTask, ih h, hne]
    case published => simp [endsTask, ih (by simpa using h)]
    all_goals simp [endsTask, ih h]

-- A task has answered if and only if its handler has ended, and with what that led to.
theorem task_answer (r : (machine ω inner).Run as s) (h : s.tasks[t]? = some task) :
    task.response? = (ended as t (.ofTask task)).bind task.answer ∧
      (task.phase = .calling → ended as t (.ofTask task) = none) := by
  induction as, s, r using Machine.Run.induction_on generalizing task
  case init => simp [machine, init] at h
  case step as s act s' r hs ih =>
    rw [ended_concat]
    cases next_step hs
    case dispatch env taken =>
      simp only [endsTask, Option.or_none]
      by_cases hl : t < s.tasks.length
      case pos => exact ih (by rwa [List.getElem?_append_left hl] at h)
      case neg =>
        rw [ended_of_length_le r (Nat.le_of_not_lt hl)]
        have hm := List.mem_of_getElem? <| List.getElem?_append_right (Nat.le_of_not_lt hl) ▸ h
        obtain ⟨_, hp⟩ := accept_fresh <| Option.mem_toList.mp hm
        simp [HandlerTask.response?, hp]
    case handled t' world task' phase handle calling answer hp =>
      simp only [List.getElem?_set] at h
      split at h
      case isFalse ht => simpa [endsTask, ht] using ih h
      case isTrue ht =>
        subst ht
        obtain ⟨_, rfl⟩ := by simpa using h
        have hn : ended as t' (.ofTask task') = none := (ih handle).right calling
        have same : Request.ofTask { task' with phase } = .ofTask task' := rfl
        simp [same, hn, endsTask, answer, hp]
        rfl
    case published t' task' response handle responded =>
      simp only [List.getElem?_set] at h
      simp only [endsTask, Option.or_none]
      split at h
      case isFalse ht => exact ih h
      case isTrue ht =>
        subst ht
        obtain ⟨_, rfl⟩ := by simpa using h
        refine ⟨?_, by simp⟩
        obtain ⟨ha, _⟩ := ih handle
        rw [HandlerTask.response?, responded] at ha
        exact ha
    all_goals simpa [endsTask] using ih h

-- What a task has handed to `transport.publish` is what its handler has returned.
theorem handler_of_response (r : (machine ω inner).Run as s) (h : s.tasks[t]? = some task)
    (hr : task.response? = some env) :
    ∃ world payload, task.handler.call task.payload world = .returned (.ok payload) ∧
      env = task.response payload := by
  rw [task_answer r h |>.left, Option.bind_eq_some_iff] at hr
  have ⟨outcome, he, ha⟩ := hr
  have ⟨act, _, ht⟩ := List.exists_of_findSome?_eq_some he
  unfold endsTask at ht
  split at ht <;> simp at ht
  case h_1 world _ _ =>
    unfold HandlerTask.answer at ha
    split at ha <;> cases ha
    exact ⟨world, _, ht.right, rfl⟩

theorem publishes_perm (r : (machine ω inner).Run as s) :
    (publishes as).Perm (s.tasks.filterMap HandlerTask.response?) := by
  induction as, s, r using Machine.Run.induction_on
  case init => rfl
  case step as s act s' r hs ih =>
    rw [publishes, List.filterMap_concat, ← publishes]
    cases next_step hs
    case dispatch env taken =>
      have hn : (accept s.handlers env).toList.filterMap HandlerTask.response? = [] := by
        cases ha : accept s.handlers env
        case none      => rfl
        case some task => simp [HandlerTask.response?, accept_fresh ha]
      simpa [hn] using ih
    case handled t world task phase handle calling answer _ =>
      have hp := List.filterMap_set_perm (b := { task with phase }) handle
        (f := HandlerTask.response?) (by simp [HandlerTask.response?, calling])
      exact ih.append_right _ |>.trans (answer ▸ hp.symm)
    case published t task response handle responded =>
      rw [List.filterMap_set_eq handle (by simp [HandlerTask.response?, responded])]
      simpa using ih
    all_goals simpa using ih

-- The envelopes that should be handed to `transport.publish`: one for each accepted request whose
-- handler has returned `Ok`.
def responses (as : List (Action ω)) : List Envelope :=
  (accepted as).zipIdx.filterMap fun (req, t) =>
    match ended as t req with
    | some (.returned (.ok bytes)) => some {
        address       := req.replyTo
        method        := none
        payload       := bytes
        correlationId := some req.correlationId
        replyTo       := none
        contentType   := some "application/json"
      }
    | _ => none

theorem publishes_responses (r : (machine ω inner).Run as s) :
    (publishes as).Perm (responses as) := by
  have h : responses as = s.tasks.filterMap HandlerTask.response? := by
    rw [responses, ← tasks_request r, List.zipIdx_map, List.filterMap_map]
    conv_rhs => rw [← List.zipIdx_map_fst 0 s.tasks, List.filterMap_map]
    refine List.filterMap_congr fun (task, t) ht => ?_
    have ha := task_answer r <| List.mem_zipIdx_iff_getElem?.mp ht
    simp only [Function.comp_apply, Prod.map, id_eq, ha.left]
    rcases ended as t (.ofTask task) with _ | (_ | bytes) | _ <;> rfl
  exact h ▸ publishes_perm r

theorem stopped_cause (r : (machine ω inner).Run as s) (serves : inner.mode.serves)
    (h : s.task = .stopped) : .subscribeFailed ∈ as ∨ .inboxClosed ∈ as := by
  induction as, s, r using Machine.Run.induction_on
  case init => simp [machine, init, serves] at h
  case step as s act s' r hs ih =>
    cases next_step hs <;> simp_all

-- What holds of a server whatever its inbox brings, whenever handlers are registered and however
-- they end: the loop only stops with its inbox, and until then it takes one envelope after the
-- other; every handler may end at any time; and the published responses are those to the accepted
-- requests whose handlers have returned `Ok`, one each.
structure ServerDispatch (inner : Inner) (as : List (Action ω)) (s : Server ω) : Prop where
  dispatched : takes as = dispatches as ++ match s.task with
    | .taken env => [env]
    | _          => []
  idle : s.task = .idle → ∀ env, ((machine ω inner).next s (.take env)).isSome
  taken : ∀ env, s.task = .taken env →
    ∃ s', (machine ω inner).next s (.dispatch env) = some s' ∧ s'.task = .idle
  stopped : inner.mode.serves → s.task = .stopped → .subscribeFailed ∈ as ∨ .inboxClosed ∈ as
  register : ∀ method handler,
    if inner.mode.serves then
      ∃ s', (machine ω inner).next s (.register method handler) = some s' ∧
        s'.handlers = Function.update s.handlers method (some handler)
    else
      s.registerRpcHandler inner method handler =
        .error (.invalidMode "register_rpc_handler() not allowed in Client mode")
  handled : ∀ (t : ℕ) (task : HandlerTask ω) world, s.tasks[t]? = some task →
    task.phase = .calling →
    ((machine ω inner).next s (.handled t world
      (task.answer (task.handler.call task.payload world)))).isSome
  published : (publishes as).Perm (responses as)
  returned : ∀ {TReq TResp : Type} (fromSlice : Bytes → Except RpcError TReq)
    (toVec : TResp → Except RpcError Bytes) (func : TReq → ω → Outcome TResp) payload world bytes,
    (Handler fromSlice toVec func).call payload world = .returned (.ok bytes) ↔
      ∃ req resp, fromSlice payload = .ok req ∧ func req world = .returned (.ok resp) ∧
        toVec resp = .ok bytes

end Server
end MomRpc
