import MomRpc.Broker.Rpc
import MomRpc.Broker.Theorems.Dispatch
import MomRpc.Broker.Theorems.Response

namespace MomRpc

namespace Rpc

variable {β ρ ω : Type} [DecidableEq β] {inner : β → Inner} {rpc rpc' : Rpc β ρ ω}
  {act : Action β ρ ω} {as : List (Action β ρ ω)} {b b' : β} {i i' k : ℕ} {a a' : Attempt}
  {env : Envelope}

-- The parts that the brokers have in one action.
structure Step (inner : β → Inner) (rpc : Rpc β ρ ω) (act : Action β ρ ω) (rpc' : Rpc β ρ ω) :
    Prop where
  allows    : rpc.Allows inner act
  clients   : (clientFamily ρ inner).next? rpc.clients act.client? = some rpc'.clients
  servers   : (serverFamily ω inner).next? rpc.servers act.server? = some rpc'.servers
  published : rpc'.published = rpc.published ++ (rpc.publish? inner act).toList
  generated : rpc'.generated = rpc.generated ++ act.correlationId?.toList

theorem next_step (h : (machine ρ ω inner).next rpc act = some rpc') : Step inner rpc act rpc' := by
  simp only [machine, next, Option.ite_none_right_eq_some, Option.bind_eq_bind,
    Option.bind_eq_some_iff] at h
  obtain ⟨allows, clients, hc, servers, hs, he⟩ := h
  cases he
  exact ⟨allows, hc, hs, rfl, rfl⟩

def Action.clientOf? (b : β) (act : Action β ρ ω) : Option (Client.Action ρ) :=
  act.client?.bind (Machine.member b)

def Action.serverOf? (b : β) (act : Action β ρ ω) : Option (Server.Action ω) :=
  act.server?.bind (Machine.member b)

theorem clientOf?_eq_some {c : Client.Action ρ} : act.clientOf? b = some c ↔ act = .client b c := by
  cases act <;> simp [Action.clientOf?, Action.client?, Machine.member]

theorem serverOf?_eq_some {s : Server.Action ω} : act.serverOf? b = some s ↔ act = .server b s := by
  cases act <;> simp [Action.serverOf?, Action.server?, Machine.member]

theorem client_component (b : β) :
    Machine.Component (machine ρ ω inner) (Client.machine ρ (inner b)) (·.clients b)
      (Action.clientOf? b) where
  init := rfl
  next _ _ _ h := Machine.family_next? (next_step h).clients b

theorem server_component (b : β) :
    Machine.Component (machine ρ ω inner) (Server.machine ω (inner b)) (·.servers b)
      (Action.serverOf? b) where
  init := rfl
  next _ _ _ h := Machine.family_next? (next_step h).servers b

namespace Step

theorem client_cases (st : Step inner rpc act rpc') (b : β) :
    (act.clientOf? b = none ∧ rpc'.clients b = rpc.clients b) ∨
      ∃ c, act = .client b c ∧ Client.Step (inner b) (rpc.clients b) c (rpc'.clients b) :=
  Machine.next?_cases (Machine.family_next? st.clients b) |>.imp_right
    fun ⟨c, hc, hn⟩ => ⟨c, clientOf?_eq_some.mp hc, Client.next_step hn⟩

theorem server_cases (st : Step inner rpc act rpc') (b : β) :
    (act.serverOf? b = none ∧ rpc'.servers b = rpc.servers b) ∨
      ∃ s, act = .server b s ∧ Server.Step (inner b) (rpc.servers b) s (rpc'.servers b) :=
  Machine.next?_cases (Machine.family_next? st.servers b) |>.imp_right
    fun ⟨s, hs, hn⟩ => ⟨s, serverOf?_eq_some.mp hs, Server.next_step hn⟩

theorem client {c : Client.Action ρ} (st : Step inner rpc (.client b c) rpc') :
    Client.Step (inner b) (rpc.clients b) c (rpc'.clients b) := by
  rcases st.client_cases b with ⟨hn, _⟩ | ⟨_, he, stc⟩
  · cases hn.symm.trans (clientOf?_eq_some.mpr rfl)
  · cases he
    exact stc

theorem server {s : Server.Action ω} (st : Step inner rpc (.server b s) rpc') :
    Server.Step (inner b) (rpc.servers b) s (rpc'.servers b) := by
  rcases st.server_cases b with ⟨hn, _⟩ | ⟨_, he, sts⟩
  · cases hn.symm.trans (serverOf?_eq_some.mpr rfl)
  · cases he
    exact sts

end Step

-- The envelope is the request of an attempt, or the response of a handler task.
def Sent (rpc : Rpc β ρ ω) (env : Envelope) : Prop :=
  (∃ (b : β) (i : ℕ) (a : Attempt), (rpc.clients b).attempts[i]? = some a ∧ a.env = env) ∨
    ∃ (b : β) (t : ℕ) (task : HandlerTask ω),
      (rpc.servers b).tasks[t]? = some task ∧ task.response? = some env

theorem Step.sent (st : Step inner rpc act rpc') (h : rpc.Sent env) : rpc'.Sent env := by
  rcases h with ⟨b, i, a, ha, he⟩ | ⟨b, t, task, ht, hr⟩
  case inl =>
    rcases st.client_cases b with ⟨_, hb⟩ | ⟨c, _, stc⟩
    · exact .inl ⟨b, i, a, hb ▸ ha, he⟩
    · have ⟨a', ha', ch⟩ := stc.change ha
      exact .inl ⟨b, i, a', ha', ch.env.trans he⟩
  case inr =>
    rcases st.server_cases b with ⟨_, hb⟩ | ⟨s, _, sts⟩
    · exact .inr ⟨b, t, task, hb ▸ ht, hr⟩
    · have ⟨task', ht', hr'⟩ := sts.response ht hr
      exact .inr ⟨b, t, task', ht', hr'⟩

theorem Step.publishes (st : Step inner rpc act rpc') (h : rpc.publish? inner act = some env) :
    rpc'.Sent env := by
  unfold publish? at h
  split at h
  case h_1 b k id =>
    have stc := st.client
    generalize hc : rpc'.clients b = c' at stc
    cases stc
    case ended ends => cases ends
    case attempt call ready handle fresh =>
      rw [handle] at h
      cases h
      have new := congrArg (·.attempts[(rpc.clients b).attempts.length]?) hc
      rw [List.getElem?_concat_length] at new
      exact .inl ⟨b, _, _, new, rfl⟩
  case h_2 b t world answer =>
    subst h
    have sts := st.server
    generalize hs : rpc'.servers b = s' at sts
    generalize hw : some env = answer at sts
    cases sts
    case handled task phase calling ended handle response =>
      have ⟨hl, _⟩ := List.getElem?_eq_some_iff.mp handle
      exact .inr ⟨b, t, _, hs ▸ List.getElem?_set_self hl, response.trans hw.symm⟩
  case h_3 => cases h

theorem sent_of_published (r : (machine ρ ω inner).Reachable rpc) (h : env ∈ rpc.published) :
    rpc.Sent env := by
  induction rpc, r using Machine.Reachable.induction_on
  case init => simp [machine] at h
  case step rpc act rpc' _ hs ih =>
    have st := next_step hs
    rw [st.published, List.mem_append, Option.mem_toList] at h
    rcases h with h | h
    · exact st.sent <| ih h
    · exact st.publishes h

-- What a receive loop takes has been published to its address.
theorem published_of_take (r : (machine ρ ω inner).Run as rpc) :
    (∀ b, ∀ env ∈ Client.takes (as.filterMap (Action.clientOf? b)),
      env ∈ rpc.published ∧ env.address.name = responsesName (inner b).nodeId) ∧
      ∀ b, ∀ env ∈ Server.takes (as.filterMap (Action.serverOf? b)),
        env ∈ rpc.published ∧ env.address.name = requestsName (inner b).nodeId := by
  induction as, rpc, r using Machine.Run.induction_on
  case init => simp [Client.takes, Server.takes]
  case step as rpc act rpc' r hs ih =>
    have st := next_step hs
    have allows := st.allows
    have grows {env} (h : env ∈ rpc.published) : env ∈ rpc'.published :=
      st.published ▸ List.mem_append_left _ h
    constructor
    case left =>
      intro b env h
      rw [Client.takes, List.filterMap_filterMap, List.filterMap_concat, List.mem_append,
        Option.mem_toList, ← List.filterMap_filterMap] at h
      rcases h with h | h
      · exact (ih.left b env h).imp_left grows
      · obtain ⟨c, hc, ht⟩ := Option.bind_eq_some_iff.mp h
        cases clientOf?_eq_some.mp hc
        cases c <;> cases ht
        exact And.imp_left grows allows
    case right =>
      intro b env h
      rw [Server.takes, List.filterMap_filterMap, List.filterMap_concat, List.mem_append,
        Option.mem_toList, ← List.filterMap_filterMap] at h
      rcases h with h | h
      · exact (ih.right b env h).imp_left grows
      · obtain ⟨s, hs, ht⟩ := Option.bind_eq_some_iff.mp h
        cases serverOf?_eq_some.mp hs
        cases s <;> cases ht
        exact And.imp_left grows allows

theorem Step.attempt_cases (st : Step inner rpc act rpc')
    (h : (rpc'.clients b).attempts[i]? = some a) :
    (∃ a₀, (rpc.clients b).attempts[i]? = some a₀ ∧ a₀.correlationId = a.correlationId) ∨
      (i = (rpc.clients b).attempts.length ∧ a.correlationId ∉ rpc.generated ∧
        ∃ k, act = .client b (.attempt k a.correlationId)) := by
  rcases st.client_cases b with ⟨_, hb⟩ | ⟨c, rfl, stc⟩
  · exact .inl ⟨a, hb ▸ h, rfl⟩
  · rcases stc.change_or_attempt h with ⟨a₀, ha, ch⟩ | ⟨rfl, rfl, _⟩
    · exact .inl ⟨a₀, ha, ch.correlationId.symm⟩
    · exact .inr ⟨rfl, st.allows, _, rfl⟩

theorem correlationId_generated (r : (machine ρ ω inner).Reachable rpc)
    (h : (rpc.clients b).attempts[i]? = some a) : a.correlationId ∈ rpc.generated := by
  induction rpc, r using Machine.Reachable.induction_on generalizing a i
  case init => simp [machine, clientFamily, Machine.family, Client.machine, Client.init] at h
  case step rpc act rpc' _ hs ih =>
    have st := next_step hs
    rw [st.generated, List.mem_append]
    rcases st.attempt_cases h with ⟨a₀, ha, hi⟩ | ⟨_, _, k, rfl⟩
    · exact .inl <| hi ▸ ih ha
    · exact .inr <| by simp [Action.correlationId?]

-- No two attempts of any of the brokers have the same id.
theorem correlationId_injective (r : (machine ρ ω inner).Reachable rpc)
    (ha : (rpc.clients b).attempts[i]? = some a) (ha' : (rpc.clients b').attempts[i']? = some a')
    (h : a.correlationId = a'.correlationId) : b = b' ∧ i = i' := by
  induction rpc, r using Machine.Reachable.induction_on generalizing a a' i i'
  case init => simp [machine, clientFamily, Machine.family, Client.machine, Client.init] at ha
  case step rpc act rpc' r hs ih =>
    have st := next_step hs
    rcases st.attempt_cases ha with ⟨a₀, h₀, hi⟩ | ⟨hl, hg, k, rfl⟩ <;>
      rcases st.attempt_cases ha' with ⟨a₁, h₁, hi'⟩ | ⟨hl', hg', k', he⟩
    · exact ih h₀ h₁ <| hi.trans <| h.trans hi'.symm
    · exact absurd (h ▸ hi ▸ correlationId_generated r h₀) hg'
    · exact absurd (h ▸ hi' ▸ correlationId_generated r h₁) hg
    · obtain ⟨rfl, _⟩ := Action.client.inj he
      exact ⟨rfl, hl.trans hl'.symm⟩

-- What carries a method is the request of an attempt.
theorem Sent.request {method : String} (r : (machine ρ ω inner).Run as rpc) (h : rpc.Sent env)
    (hm : env.method = some method) :
    ∃ (b : β) (i : ℕ) (a : Attempt), (rpc.clients b).attempts[i]? = some a ∧ a.env = env := by
  rcases h with h | ⟨b, t, task, ht, hr⟩
  case inl => exact h
  case inr =>
    obtain ⟨_, _, _, rfl⟩ := Server.handler_of_response ((server_component b).run r) ht hr
    cases hm

-- What is addressed to a node's responses is the answer of a handler task.
theorem Sent.response {n : String} (r : (machine ρ ω inner).Run as rpc) (h : rpc.Sent env)
    (hn : env.address.name = responsesName n) :
    ∃ (b : β) (t : ℕ) (task : HandlerTask ω) (world : ω) (payload : Bytes),
      (rpc.servers b).tasks[t]? = some task ∧
      task.handler.call task.payload world = .returned (.ok payload) ∧
      env = task.response payload := by
  rcases h with ⟨b, i, a, ha, rfl⟩ | ⟨b, t, task, ht, hr⟩
  case inl =>
    have ⟨call, _, he⟩ := Client.env_eq_request ((client_component b).run r).reachable ha
    rw [he] at hn
    exact absurd hn requestsName_ne_responsesName
  case inr =>
    have ⟨world, payload, hc, he⟩ :=
      Server.handler_of_response ((server_component b).run r) ht hr
    exact ⟨b, t, task, world, payload, ht, hc, he⟩

-- Every handler task has been spawned for an envelope that its server had taken from the inbox.
theorem spawned {t : ℕ} {task : HandlerTask ω} (r : (machine ρ ω inner).Run as rpc)
    (h : (rpc.servers b).tasks[t]? = some task) :
    ∃ xs ys s env, as = xs ++ .server b (.dispatch env) :: ys ∧ (machine ρ ω inner).Run xs s ∧
      (s.servers b).tasks.length = t ∧ env ∈ Server.takes (as.filterMap (Action.serverOf? b)) ∧
      Server.accept (s.servers b).handlers env = some task.fresh := by
  induction as, rpc, r using Machine.Run.induction_on generalizing task
  case init => simp [machine, serverFamily, Machine.family, Server.machine, Server.init] at h
  case step as rpc act rpc' r hn ih =>
    have older {task₀} (h₀ : (rpc.servers b).tasks[t]? = some task₀)
        (same : task₀.fresh = task.fresh) :
        ∃ xs ys s env, as ++ [act] = xs ++ .server b (.dispatch env) :: ys ∧
          (machine ρ ω inner).Run xs s ∧ (s.servers b).tasks.length = t ∧
          env ∈ Server.takes ((as ++ [act]).filterMap (Action.serverOf? b)) ∧
          Server.accept (s.servers b).handlers env = some task.fresh := by
      obtain ⟨xs, ys, s, env, rfl, rs, length, mem, accepted⟩ := ih h₀
      refine ⟨xs, ys ++ [act], s, env, by simp, rs, length, ?_, same ▸ accepted⟩
      rw [Server.takes, List.filterMap_append, List.filterMap_append]
      exact List.mem_append_left _ mem
    rcases (next_step hn).server_cases b with ⟨_, hb⟩ | ⟨s, rfl, st⟩
    case inl => exact older (hb ▸ h) rfl
    case inr =>
      rcases st.task_cases h with ⟨task₀, h₀, same⟩ | ⟨env, rfl, taken, length, accepted⟩
      case inl => exact older h₀ same
      case inr =>
        have fresh := Server.accept_fresh accepted |>.left
        refine ⟨as, [], rpc, env, rfl, r, length.symm, ?_, fresh ▸ accepted⟩
        rw [Server.takes, List.filterMap_append, List.filterMap_append, ← Server.takes,
          Server.takes_eq ((server_component b).run r), taken]
        simp

-- The handler task is for the attempt: it has been spawned at a broker which the call has
-- addressed, when that looked up the attempt's request, with the handler that had last been
-- registered for the method by then, and it has got the request.
structure Serves (inner : β → Inner) (as : List (Action β ρ ω)) (b : β) (call : Call ρ)
    (a : Attempt) (t : ℕ) (task : HandlerTask ω) : Prop where
  addressed     : (inner b).nodeId = call.targetNodeId
  registered    : ∃ xs ys rpc, as = xs ++ .server b (.dispatch a.env) :: ys ∧
    (machine ρ ω inner).Run xs rpc ∧ (rpc.servers b).tasks.length = t ∧
    Server.registered (xs.filterMap (Action.serverOf? b)) call.method = some task.handler
  payload       : task.payload = call.reqBytes
  correlationId : task.correlationId = a.correlationId

theorem task_serves {t : ℕ} {task : HandlerTask ω} (r : (machine ρ ω inner).Run as rpc)
    (h : (rpc.servers b').tasks[t]? = some task) :
    ∃ (b : β) (i : ℕ) (a : Attempt) (call : Call ρ), (rpc.clients b).attempts[i]? = some a ∧
      (rpc.clients b).calls[a.call]? = some call ∧ Serves inner as b' call a t task := by
  have ⟨xs, ys, s, env, split, rs, length, mem, accepted⟩ := spawned r h
  have ⟨method, hm, handler, payload, id⟩ := Server.accept_some accepted
  have ⟨published, addressed⟩ := (published_of_take r).right b' env mem
  obtain ⟨b, i, a, ha, rfl⟩ := (sent_of_published r.reachable published).request r hm
  have ⟨call, hc, he⟩ := Client.env_eq_request ((client_component b).run r).reachable ha
  refine ⟨b, i, a, call, ha, hc, ?_, ⟨xs, ys, s, split, rs, length, ?_⟩, ?_, ?_⟩
  · rw [he] at addressed
    exact requestsName_injective addressed.symm
  · rw [he] at hm
    cases hm
    rwa [← Server.handlers_eq ((server_component b').run rs)]
  · rw [he] at payload
    exact payload.symm
  · rw [he] at id
    exact (Option.some.inj id).symm

theorem authentic {call : Call ρ} {v : ρ} (r : (machine ρ ω inner).Run as rpc)
    (h : (rpc.clients b).calls[k]? = some call) (returned : call.phase = .returned (.ok v)) :
    ∃ (i : ℕ) (a : Attempt) (b' : β) (t : ℕ) (task : HandlerTask ω) (world : ω) (p : Bytes),
      (rpc.clients b).attempts[i]? = some a ∧ a.call = k ∧
      (rpc.servers b').tasks[t]? = some task ∧ Serves inner as b' call a t task ∧
      task.handler.call call.reqBytes world = .returned (.ok p) ∧ call.fromSlice p = .ok v := by
  have rc := (client_component b).run r
  have settled := Client.settled rc.reachable h
  simp only [Client.Settled, returned] at settled
  obtain ⟨i, a, p, ha, hk, completed, decoded, _⟩ := settled
  -- The response that has completed the attempt is the answer of a handler task.
  obtain ⟨n, env, answers, hp⟩ := Client.answered rc ha completed
  have hid : env.correlationId = some a.correlationId := by
    obtain ⟨_, _, _, _, _, _, hid, _⟩ := answers
    exact hid
  obtain ⟨published, addressed⟩ :=
    (published_of_take r).left b env <| List.mem_of_getElem? answers.getElem?
  obtain ⟨b', t, task, world, payload, ht, called, rfl⟩ :=
    (sent_of_published r.reachable published).response r addressed
  cases hp
  -- The task is for an attempt with the same correlation id, and that is no other one.
  obtain ⟨b₁, i₁, a₁, call₁, ha₁, hc₁, serves⟩ := task_serves r ht
  have same : a.correlationId = a₁.correlationId :=
    (Option.some.inj hid).symm.trans serves.correlationId
  obtain ⟨rfl, rfl⟩ := correlationId_injective r.reachable ha ha₁ same
  cases ha.symm.trans ha₁
  cases h.symm.trans (hk ▸ hc₁)
  rw [serves.payload] at called
  exact ⟨i, a, b', t, task, world, payload, ha, hk, ht, serves, called, decoded⟩

-- Whatever the transports lose, delay or repeat: the handlers are called for nothing but requests
-- to their node and for their method, and a call that returns a response returns what a handler has
-- returned for its request.
structure Safe (inner : β → Inner) (as : List (Action β ρ ω)) (clients : β → Client ρ)
    (servers : β → Server ω) : Prop where
  invoked  : ∀ (b' : β) (t : ℕ) (task : HandlerTask ω), (servers b').tasks[t]? = some task →
    ∃ (b : β) (i : ℕ) (a : Attempt) (call : Call ρ), (clients b).attempts[i]? = some a ∧
      (clients b).calls[a.call]? = some call ∧ Serves inner as b' call a t task
  answered : ∀ (b : β) (k : ℕ) (call : Call ρ) (v : ρ), (clients b).calls[k]? = some call →
    call.phase = .returned (.ok v) →
    ∃ (i : ℕ) (a : Attempt) (b' : β) (t : ℕ) (task : HandlerTask ω) (world : ω) (p : Bytes),
      (clients b).attempts[i]? = some a ∧ a.call = k ∧
      (servers b').tasks[t]? = some task ∧ Serves inner as b' call a t task ∧
      task.handler.call call.reqBytes world = .returned (.ok p) ∧ call.fromSlice p = .ok v

theorem Safe.of_run (r : (machine ρ ω inner).Run as rpc) :
    Safe inner as rpc.clients rpc.servers where
  invoked _ _ _  := task_serves r
  answered _ _ _ _ := authentic r

-- The part that the protocol has in a step of a system in which at most one broker takes part, with
-- its client or with its server.
def Action.of (client? : Option (β × Client.Action ρ)) (server? : Option (β × Server.Action ω)) :
    Option (Action β ρ ω) :=
  match client?, server? with
  | some (b, act), _    => some (.client b act)
  | none, some (b, act) => some (.server b act)
  | none, none          => none

theorem next?_of {client? : Option (β × Client.Action ρ)} {server? : Option (β × Server.Action ω)}
    {clients : β → Client ρ} {servers : β → Server ω} (one : client? = none ∨ server? = none)
    (hc : (clientFamily ρ inner).next? rpc.clients client? = some clients)
    (hs : (serverFamily ω inner).next? rpc.servers server? = some servers)
    (allows : ∀ act, Action.of client? server? = some act → rpc.Allows inner act) :
    (machine ρ ω inner).next? rpc (Action.of client? server?) = some {
      clients, servers
      published :=
        rpc.published ++ ((Action.of client? server?).bind (rpc.publish? inner)).toList
      generated := rpc.generated ++ ((Action.of client? server?).bind Action.correlationId?).toList
    } := by
  cases client? <;> cases server?
  case none.none =>
    cases hc
    cases hs
    simp [Action.of, Machine.next?]
  case none.some act =>
    cases hc
    simp only [Machine.next?] at hs
    simp [Action.of, Machine.next?, machine, next, allows _ rfl, Action.client?, Action.server?, hs]
  case some.none act =>
    cases hs
    simp only [Machine.next?] at hc
    simp [Action.of, Machine.next?, machine, next, allows _ rfl, Action.client?, Action.server?, hc]
  case some.some => simp at one

end Rpc
end MomRpc
