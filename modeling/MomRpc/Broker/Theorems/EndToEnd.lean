import MomRpc.Broker.Theorems.Inbox
import MomRpc.Broker.Theorems.Response

namespace MomRpc.Network

variable {β ρ ω : Type} [DecidableEq β] {inner : β → Inner} {net net' : Network β ρ ω}
  {act : Action β ρ ω} {as : List (Action β ρ ω)} {rx : Receiver β} {p q : Publisher β} {b : β}
  {env : Envelope} {method : String} {t : ℕ} {task : HandlerTask ω}

-- The `t`-th handler task of a broker is for this envelope: the server task took it from its inbox
-- and found the handler registered for its method.
def Invokes (inner : β → Inner) (as : List (Action β ρ ω)) (b : β) (env : Envelope)
    (method : String) (t : ℕ) (task : HandlerTask ω) : Prop :=
  ∃ xs ys net, as = xs ++ .server b (.dispatch env) :: ys ∧ (machine ρ ω inner).Run xs net ∧
    env ∈ takes (.requests b) xs ∧ (net.servers b).task = .taken env ∧
    (net.servers b).tasks.length = t ∧ env.method = some method ∧
    (net.servers b).handlers method = some task.handler ∧
    Server.accept (net.servers b).handlers env = some task

theorem Invokes.concat (h : Invokes inner as b env method t task) :
    Invokes inner (as ++ [act]) b env method t task := by
  obtain ⟨xs, ys, net, rfl, h⟩ := h
  exact ⟨xs, ys ++ [act], net, by simp, h⟩

theorem Step.dispatch_of_serverOf? (st : Step inner net act net')
    (h : act.serverOf? b = some (.dispatch env)) : act = .server b (.dispatch env) := by
  have hs := Machine.bind_member_eq_some.mp h
  cases act <;> simp [Action.server?] at hs
  case server           => obtain ⟨rfl, rfl⟩ := hs; rfl
  case subscribed rx    => cases rx <;> simp at hs
  case receive rx _ _   => cases rx <;> simp at hs
  case inboxClosed rx _ => cases rx <;> simp at hs

theorem takes_of_taken (r : (machine ρ ω inner).Run as net)
    (h : (net.servers b).task = .taken env) :
    takes (.requests b) as = Server.dispatches (as.filterMap (Action.serverOf? b)) ++ [env] := by
  rw [← server_takes r, Server.takes_eq ((server_component b).run r), h]

-- Every handler task has been spawned for an envelope.
theorem invokes (r : (machine ρ ω inner).Run as net) (h : (net.servers b).tasks[t]? = some task) :
    ∃ env method, Invokes inner as b env method t task.fresh := by
  induction as, net, r using Machine.Run.induction_on generalizing task
  case init => simp [machine, serverFamily, Machine.family, Server.machine, Server.init] at h
  case step as net act net' r hs ih =>
    have st := next_step hs
    rcases st.server_cases b with ⟨_, hb⟩ | ⟨s, hs, sts⟩
    · obtain ⟨env, method, hi⟩ := ih (hb ▸ h)
      exact ⟨env, method, hi.concat⟩
    · rcases sts.task_cases h with ⟨task₀, h₀, hf⟩ | ⟨env, rfl, taken, ht, ha⟩
      · obtain ⟨env, method, hi⟩ := ih h₀
        exact ⟨env, method, hf ▸ hi.concat⟩
      · obtain rfl := st.dispatch_of_serverOf? hs
        obtain ⟨method, hm, hh, _⟩ := Server.accept_some ha
        have hf := Server.accept_fresh ha |>.left
        refine ⟨env, method, as, [], net, rfl, r, ?_, taken, ht.symm, hm, hf ▸ hh, hf ▸ ha⟩
        simp [takes_of_taken r taken]

-- What carries a method is the request of an attempt.
theorem Sent.request (r : (machine ρ ω inner).Run as net) (h : net.Sent p env)
    (hm : env.method = some method) :
    ∃ b i a, p = .request b i ∧ (net.clients b).attempts[i]? = some a ∧ a.env = env ∧
      env.correlationId = some a.correlationId := by
  cases p
  case request b i =>
    obtain ⟨a, ha, rfl⟩ := h
    have ⟨call, _, he⟩ := Client.env_eq_request ((client_component b).run r).reachable ha
    exact ⟨b, i, a, rfl, ha, rfl, by rw [he]; rfl⟩
  case response b t =>
    have ⟨task, ht, hr⟩ := h
    obtain ⟨_, _, _, rfl⟩ := Server.handler_of_response ((server_component b).run r) ht hr
    cases hm

-- What is addressed to a node's responses is the answer of a handler task.
theorem Sent.response {n : String} (r : (machine ρ ω inner).Run as net) (h : net.Sent p env)
    (hn : env.address.name = responsesName n) :
    ∃ (b : β) (t : ℕ) (task : HandlerTask ω) (world : ω) (payload : Bytes),
      (net.servers b).tasks[t]? = some task ∧
      task.handler.call task.payload world = .returned (.ok payload) ∧
      env = task.response payload := by
  cases p
  case request b i =>
    obtain ⟨a, ha, rfl⟩ := h
    have ⟨call, _, he⟩ := Client.env_eq_request ((client_component b).run r).reachable ha
    rw [he] at hn
    exact absurd hn requestsName_ne_responsesName
  case response b t =>
    have ⟨task, ht, hr⟩ := h
    have ⟨world, payload, hc, he⟩ :=
      Server.handler_of_response ((server_component b).run r) ht hr
    exact ⟨b, t, task, world, payload, ht, hc, he⟩

theorem Sent.unique (r : (machine ρ ω inner).Run as net) (hp : net.Sent p env)
    (hq : net.Sent q env) (hm : env.method = some method) : p = q := by
  obtain ⟨b, i, a, rfl, ha, _, hi⟩ := hp.request r hm
  obtain ⟨b', i', a', rfl, ha', _, hi'⟩ := hq.request r hm
  have ⟨hb, hj⟩ := correlationId_injective r.reachable ha ha' <| Option.some.inj (hi ▸ hi')
  rw [hb, hj]

theorem takes_once {m n : ℕ} (r : (machine ρ ω inner).Run as net)
    (h : (takes rx as)[m]? = some env) (h' : (takes rx as)[n]? = some env)
    (hm : env.method = some method) : m = n := by
  obtain ⟨ps, hd, he, _⟩ := takes_eq r rx
  have get {m : ℕ} (h : (takes rx as)[m]? = some env) :
      ∃ p, ps[m]? = some p ∧ net.Sent p env := by
    have hp := congrArg (·[m]?) he
    simp only [List.getElem?_map, h, Option.map_some] at hp
    obtain ⟨p, hp, he⟩ := Option.map_eq_some_iff.mp hp.symm
    exact ⟨p, hp, sent_of_publish r.reachable he⟩
  obtain ⟨p, hp, hs⟩ := get h
  obtain ⟨q, hq, hs'⟩ := get h'
  obtain ⟨hl, _⟩ := List.getElem?_eq_some_iff.mp hp
  exact (List.getElem?_inj hl hd).mp <| by rw [hp, hq, hs.unique r hs' hm]

-- A server task looks up an envelope that carries a method once.
theorem dispatch_once {xs xs' ys ys' : List (Action β ρ ω)} {s s' : Network β ρ ω}
    (r : (machine ρ ω inner).Run as net) (hm : env.method = some method)
    (h : as = xs ++ .server b (.dispatch env) :: ys) (rs : (machine ρ ω inner).Run xs s)
    (taken : (s.servers b).task = .taken env)
    (h' : as = xs' ++ .server b (.dispatch env) :: ys') (rs' : (machine ρ ω inner).Run xs' s')
    (taken' : (s'.servers b).task = .taken env) : xs = xs' := by
  let dispatched (xs : List (Action β ρ ω)) : List Envelope :=
    Server.dispatches (xs.filterMap (Action.serverOf? b))
  have position {xs ys s} (h : as = xs ++ .server b (.dispatch env) :: ys)
      (rs : (machine ρ ω inner).Run xs s) (taken : (s.servers b).task = .taken env) :
      (takes (.requests b) as)[(dispatched xs).length]? = some env := by
    have ht : takes (.requests b) as =
        takes (.requests b) xs ++ takes (.requests b) (.server b (.dispatch env) :: ys) := by
      rw [h, takes, List.filterMap_append]
      rfl
    simp [ht, takes_of_taken rs taken, dispatched]
  have before {xs xs'} (hp : xs ++ [.server b (.dispatch env)] <+: xs') :
      (dispatched xs).length < (dispatched xs').length := by
    have hl := (hp.filterMap (Action.serverOf? b)).filterMap Server.dispatch? |>.length_le
    apply Nat.lt_of_succ_le
    simpa [dispatched, Server.dispatches, List.filterMap_append, Action.serverOf?, Action.server?,
      Machine.member, Server.dispatch?] using hl
  have he := takes_once r (position h rs taken) (position h' rs' taken') hm
  rcases List.append_cons_cases (h.symm.trans h') with hx | hx | hx
  · exact hx
  · exact absurd he (before hx).ne
  · exact absurd he (before hx).ne'

-- End-to-end requests over the memory transport.
structure EndToEnd (inner : β → Inner) (as : List (Action β ρ ω)) (net : Network β ρ ω) :
    Prop where
  completed : ∀ (b : β) (i : ℕ) (a : Attempt) (call : Call ρ) p,
    (net.clients b).attempts[i]? = some a → (net.clients b).calls[a.call]? = some call →
    a.phase = .ended (.ok p) →
    ∃ b' t task world, (inner b').nodeId = call.targetNodeId ∧ (inner b').mode.serves ∧
      Invokes inner as b' a.env call.method t task ∧
      task.handler.call call.reqBytes world = .returned (.ok p)
  invoked : ∀ (b : β) (t : ℕ) task, (net.servers b).tasks[t]? = some task →
    ∃ env method, Invokes inner as b env method t task.fresh
  once : ∀ b env m m' t t' task task', Invokes inner as b env m t task →
    Invokes inner as b env m' t' task' → t = t'

theorem end_to_end (r : (machine ρ ω inner).Run as net) : EndToEnd inner as net where
  completed b i a call p ha hc hp := by
    have rc := (client_component b).run r
    have ⟨call', hc', hr⟩ := Client.env_eq_request rc.reachable ha
    cases hc.symm.trans hc'
    -- The response that has completed the attempt is the answer of a handler task.
    have ⟨n, env, answers, hpay⟩ := Client.answered rc ha hp
    have hid : env.correlationId = some a.correlationId := by
      obtain ⟨_, _, _, _, _, _, hid, _⟩ := answers
      exact hid
    have ⟨hn, q, hs⟩ := sent_of_take r <| client_takes r ▸ List.mem_of_getElem? answers.getElem?
    have ⟨b', t, task, world, payload, ht, hcall, he⟩ :=
      hs.response r (congrArg Subscription.name hn).symm
    subst he
    -- The task is for a request with the attempt's correlation id.
    have ⟨env', method, hi⟩ := invokes r ht
    have ⟨xs, ys, s, has, rs, hm, taken, hl, hme, hh, hacc⟩ := hi
    have ⟨_, _, _, hpay', hid'⟩ := Server.accept_some hacc
    have hmem : env' ∈ takes (.requests b') as := by
      rw [has, takes, List.filterMap_append]
      exact List.mem_append_left _ hm
    have ⟨hn', q', hs'⟩ := sent_of_take r hmem
    obtain ⟨b₁, i₁, a₁, rfl, ha₁, rfl, hid₁⟩ := hs'.request r hme
    -- There is only one such request.
    have hid₂ : a.correlationId = a₁.correlationId := by
      rw [hid₁] at hid'
      exact Option.some.inj <| hid.symm.trans hid'.symm
    obtain ⟨rfl, rfl⟩ := correlationId_injective r.reachable ha ha₁ hid₂
    cases ha.symm.trans ha₁
    rw [hr] at hme hpay' hn' hi
    obtain rfl : call.method = method := Option.some.inj hme
    refine ⟨b', t, task.fresh, world, ?_, ?_, hr ▸ hi, ?_⟩
    · exact requestsName_injective <| congrArg Subscription.name hn'
    · exact Server.serves_of_handler ((server_component b').run rs).reachable hh
    · have hb : call.reqBytes = task.payload := hpay'
      rw [hb, ← hpay]
      exact hcall
  invoked b t task h := invokes r h
  once b env m m' t t' task task' h h' := by
    obtain ⟨xs, ys, s, has, rs, _, taken, rfl, hm, _⟩ := h
    obtain ⟨xs', ys', s', has', rs', _, taken', rfl, _⟩ := h'
    obtain rfl := dispatch_once r hm has rs taken has' rs' taken'
    rw [rs.deterministic rs']

-- A broker that sends a request to itself: up to the point where its server task takes it, from
-- there on, and what has become of the attempt.
def loneBroker : Unit → Inner := fun _ =>
  { nodeId := "n", mode := .fullDuplex }

def loneEcho : HandlerFn Unit :=
  Handler .ok .ok fun req _ => .returned (.ok req)

def loneEnv : Envelope :=
  (loneBroker ()).request "n" "m" [1] "c"

def loneAnswer : Envelope :=
  .response ⟨responsesName "n"⟩ [1] "c" "application/json"

def loneRegister : Action Unit Bytes Unit :=
  .server () (.register "m" loneEcho)

def loneRequest : List (Action Unit Bytes Unit) := [
    .subscribed (.responses ()), .subscribed (.requests ()),
    .client () (.request "n" "m" (.ok [1]) .ok), .attempt () 0 "c" 0 loneEnv,
    .hub (.acquire (.request () 0)), .hub (.send (.request () 0) 1), .requested () 0 0
  ]

def loneResponse : List (Action Unit Bytes Unit) := [
    .server () (.dispatch loneEnv), .handled () 0 () (some loneAnswer),
    .hub (.acquire (.response () 0)), .hub (.send (.response () 0) 0), .responded () 0,
    .receive (.responses ()) 0 loneAnswer, .client () (.lookup loneAnswer),
    .client () (.deliver 0 [1]), .client () (.respond 0)
  ]

def loneAttempt : Attempt where
  call          := 0
  correlationId := "c"
  env           := loneEnv
  phase         := .ended (.ok [1])
  response      := some [1]

def loneCall : Call Bytes where
  targetNodeId := "n"
  method       := "m"
  reqBytes     := [1]
  fromSlice    := .ok
  loop         := none
  phase        := .returned (.ok [1])

theorem end_to_end_lone :
    let as := loneRegister :: loneRequest ++ .receive (.requests ()) 1 loneEnv :: loneResponse
    ∃ net, (machine Bytes Unit loneBroker).Run as net ∧
      ∃ b' t task world, (loneBroker b').nodeId = "n" ∧
        Invokes loneBroker as b' loneEnv "m" t task ∧
        task.handler.call [1] world = .returned (.ok [1]) := by
  intro as
  have run : (machine Bytes Unit loneBroker).Run as _ := Machine.Run.of_isSome rfl
  have ⟨b', t, task, world, hn, _, hi, hc⟩ :=
    (end_to_end run).completed () 0 loneAttempt loneCall [1] rfl rfl rfl
  exact ⟨_, run, b', t, task, world, hn, hi, hc⟩

-- The handler need not have been registered yet when the server task takes the request.
theorem handler_registered_after_take :
    let as := loneRequest ++ .receive (.requests ()) 1 loneEnv :: loneRegister :: loneResponse
    ∃ net a, (machine Bytes Unit loneBroker).Run as net ∧
      (net.clients ()).attempts[0]? = some a ∧ a.env = loneEnv ∧ a.phase = .ended (.ok [1]) ∧
      ∀ b' xs j ys s, as = xs ++ .receive (.requests b') j loneEnv :: ys →
        (machine Bytes Unit loneBroker).Run xs s → (s.servers b').handlers "m" = none := by
  intro as
  have run : (machine Bytes Unit loneBroker).Run as _ := Machine.Run.of_isSome rfl
  refine ⟨_, loneAttempt, run, rfl, rfl, rfl, fun b' xs j ys s h rs => ?_⟩
  have hx : .receive (.requests b') j loneEnv ∉ loneRequest := by simp [loneRequest]
  have hy : .receive (.requests b') j loneEnv ∉ loneRegister :: loneResponse := by
    simp [loneRegister, loneResponse]
  obtain ⟨rfl, _⟩ := List.append_cons_inj_of_notMem hx hy |>.mp h
  have rs' : (machine Bytes Unit loneBroker).Run loneRequest _ := Machine.Run.of_isSome rfl
  obtain rfl := rs.deterministic rs'
  rfl

end MomRpc.Network
