import MomRpc.Broker.Theorems.Builder
import MomRpc.Broker.Theorems.Network

namespace MomRpc

namespace Client

variable {ρ : Type} {inner : Inner} {c : Client ρ}

theorem requests_of_starting (r : (machine ρ inner).Reachable c) (h : c.task = .starting) :
    inner.mode.requests := by
  induction c, r using Machine.Reachable.induction_on
  case init => simpa [machine, init] using h
  case step hn ih => exact ih <| (next_step hn).starting h |>.left

-- A broker that may not send requests has none of its calls get that far.
theorem requests_of_attempt (r : (machine ρ inner).Reachable c) {a : Attempt}
    (ha : a ∈ c.attempts) :
    inner.mode.requests := by
  by_contra hm
  suffices h : c.attempts = [] ∧ ∀ call ∈ c.calls, ∃ result, call.phase = .returned result by
    simp [h.left] at ha
  clear ha
  induction c, r using Machine.Reachable.induction_on
  case init => simp [machine, init]
  case step c act c' r hn ih =>
    have empty := ih.left
    have returned := ih.right
    have not {k : ℕ} {call : Call ρ} (handle : c.calls[k]? = some call) :
        ∃ result, call.phase = .returned result := returned call <| List.mem_of_getElem? handle
    cases next_step hn <;> try exact ih
    case deliver => exact ⟨by simp [empty], returned⟩
    case request call _ =>
      refine ⟨empty, fun call' h => ?_⟩
      rcases List.mem_append.mp h with h | h
      · exact returned call' h
      · obtain rfl := List.mem_singleton.mp h
        have eq := congrArg Client.calls <| Option.some.inj hn
        obtain rfl := by simpa [Client.request, hm] using eq
        exact ⟨_, rfl⟩
    case attempt handle ready _ =>
      obtain ⟨_, hp⟩ := not handle
      simp [hp] at ready
    case wake handle sleeping _ =>
      obtain ⟨_, hp⟩ := not handle
      simp [hp] at sleeping
    case dropIdle handle idle =>
      obtain ⟨_, hp⟩ := not handle
      simp [hp] at idle
    case dropAttempting handle attempting =>
      obtain ⟨_, hp⟩ := not handle
      simp [hp] at attempting
    case published handle _ => simp [empty] at handle
    case ended handle _     => simp [empty] at handle

end Client

namespace Server

variable {ω : Type} {inner : Inner} {s : Server ω}

theorem serves_of_starting (r : (machine ω inner).Reachable s) (h : s.task = .starting) :
    inner.mode.serves := by
  induction s, r using Machine.Reachable.induction_on
  case init => simpa [machine, init] using h
  case step hn ih => exact ih <| (next_step hn).starting h |>.left

end Server

namespace Network

variable {β ρ ω : Type} [DecidableEq β] {inner : β → Inner}
  {net : Network β ρ ω} {b : β} {name : String}

def Receiver.broker : Receiver β → β
  | responses b | requests b => b

-- In some run, one of the broker's receive loops subscribes to the name.
def Subscribes (ρ ω : Type) (inner : β → Inner) (b : β) (name : String) : Prop :=
  ∃ as net rx, (machine ρ ω inner).Run as net ∧ .subscribed rx ∈ as ∧ rx.broker = b ∧
    rx.subscription inner = ⟨name⟩

-- In some run, the broker sends the request.
def Sends (ρ ω : Type) (inner : β → Inner) (b : β) (env : Envelope) : Prop :=
  ∃ net, (machine ρ ω inner).Reachable net ∧ ∃ a ∈ (net.clients b).attempts, a.env = env

-- Each receive loop that is started can subscribe.
theorem subscribed_responses (h : (inner b).mode.requests) :
    ∃ net, (machine ρ ω inner).Run [.subscribed (.responses b)] net := by
  refine ⟨_, Machine.Run.of_isSome ?_⟩
  simp [machine, next, Allows, Action.hub?, Action.client?, Action.server?, Machine.next?, hubs,
    clientFamily, serverFamily, Machine.family, MemoryHub.machine, MemoryHub.next,
    MemoryHub.subscribe, Client.machine, Client.next, Client.subscribed, Client.init, h]

theorem subscribed_requests (h : (inner b).mode.serves) :
    ∃ net, (machine ρ ω inner).Run [.subscribed (.requests b)] net := by
  refine ⟨_, Machine.Run.of_isSome ?_⟩
  simp [machine, next, Allows, Action.hub?, Action.client?, Action.server?, Machine.next?, hubs,
    clientFamily, serverFamily, Machine.family, MemoryHub.machine, MemoryHub.next,
    MemoryHub.subscribe, Server.machine, Server.next, Server.subscribed, Server.init, h]

-- Each broker that may send requests can send one.
theorem sends_request (h : (inner b).mode.requests) :
    ∃ env, Sends ρ ω inner b env ∧ env.replyTo = some ⟨responsesName (inner b).nodeId⟩ := by
  let env := (inner b).request "" "" [] ""
  obtain ⟨net, run⟩ : ∃ net, (machine ρ ω inner).Run ([.client b (.request "" "" (.ok []) fun _ =>
      .error .timeout)] ++ [.attempt b 0 "" 0 env]) net := by
    refine ⟨_, Machine.Run.of_isSome ?_⟩
    simp [machine, next, Allows, Action.hub?, Action.client?, Action.server?, Action.correlationId?,
      Machine.next?, hubs, clientFamily, serverFamily, Machine.family, MemoryHub.machine,
      MemoryHub.next, MemoryHub.publish, Client.machine, Client.next, Client.request,
      Client.attempt,
      Client.init, h, env]
  obtain ⟨_, _, hn⟩ := Machine.exec_concat_iff.mp run
  obtain ⟨_, _, attempts⟩ := (next_step hn).attempt
  refine ⟨env, ⟨net, run.reachable, { call := 0, correlationId := "", env }, ?_, rfl⟩, rfl⟩
  exact attempts ▸ List.mem_append_right _ (List.mem_singleton_self _)

theorem replyTo_of_sends (r : (machine ρ ω inner).Reachable net) {a : Attempt}
    (ha : a ∈ (net.clients b).attempts) :
    a.env.replyTo = some ⟨responsesName (inner b).nodeId⟩ := by
  induction net, r using Machine.Reachable.induction_on generalizing a
  case init => simp [machine, clientFamily, Machine.family, Client.machine, Client.init] at ha
  case step net act net' r hn ih =>
    obtain ⟨i, h⟩ := List.mem_iff_getElem?.mp ha
    rcases (next_step hn).client_cases b with ⟨_, he⟩ | ⟨_, _, stc⟩
    · exact ih <| he ▸ ha
    · rcases stc.change_or_attempt h with ⟨a₀, h₀, ch⟩ | ⟨hi, rfl, _⟩
      · exact ch.env ▸ ih (List.mem_of_getElem? h₀)
      · generalize (net'.clients b) = c' at stc h
        cases stc
        case ended ends => cases ends
        case attempt =>
          simp only [hi, List.getElem?_concat_length, Option.some.injEq] at h
          rw [← h]
          rfl

theorem subscribes_iff : Subscribes ρ ω inner b name ↔
    ((inner b).mode.requests ∧ name = responsesName (inner b).nodeId) ∨
      ((inner b).mode.serves ∧ name = requestsName (inner b).nodeId) := by
  constructor
  case mp =>
    rintro ⟨as, net, rx, r, hs, rfl, hn⟩
    obtain ⟨xs, ys, rfl⟩ := List.append_of_mem hs
    obtain ⟨s, rs, -⟩ := r.split
    obtain ⟨t, hnext, -⟩ := r.next rs
    have st := next_step hnext
    cases rx
    case responses b =>
      have stc := st.client rfl
      generalize t.clients b = c' at stc
      cases stc
      case ended ends => cases ends
      case subscribed starting =>
        refine .inl ⟨Client.requests_of_starting ⟨_, (client_component b).run rs⟩ starting, ?_⟩
        exact (Subscription.mk.inj hn).symm
    case requests b =>
      have sts := st.server rfl
      generalize t.servers b = s' at sts
      cases sts
      case subscribed starting =>
        refine .inr ⟨Server.serves_of_starting ⟨_, (server_component b).run rs⟩ starting, ?_⟩
        exact (Subscription.mk.inj hn).symm
  case mpr =>
    rintro (⟨hm, rfl⟩ | ⟨hm, rfl⟩)
    · have ⟨net, r⟩ := subscribed_responses (ρ := ρ) (ω := ω) hm
      exact ⟨_, net, _, r, List.mem_singleton_self _, rfl, rfl⟩
    · have ⟨net, r⟩ := subscribed_requests (ρ := ρ) (ω := ω) hm
      exact ⟨_, net, _, r, List.mem_singleton_self _, rfl, rfl⟩

end Network

namespace Network

variable {β : Type} [DecidableEq β]

-- The broker subscribes to the queues that its transport is configured with and to nothing else,
-- and has its requests answered to the response queue.
structure UsesConfigured (ρ ω : Type) (inner : β → Inner) (b : β) (base : TransportBase) :
    Prop where
  subscriptions : ∀ name, Subscribes ρ ω inner b name ↔
    base.requestQueue = some name ∨ base.responseQueue = some name
  replies       : ∀ env, Sends ρ ω inner b env → env.replyTo = base.responseQueue.map Address.mk

-- The queues that are used are the configured ones if and only if each of these is named after the
-- node as a sugar mode would name it.
theorem configured_queues_are_used (ρ ω : Type) (factories : Factories)
    (setters : List TransportBuilder.Setter) (transport : TransportPtr)
    (built : (TransportBuilder.new setters).build factories = .ok transport)
    (options : List RpcBrokerBuilder.Setter) (plain : ∀ id, .nodeId id ∉ options)
    (inner : β → Inner) (b : β)
    (broker : inner b = (RpcBrokerBuilder.new transport options).build) :
    UsesConfigured ρ ω inner b transport.base ↔
      ∀ n queue, (TransportBuilder.new setters).nodeId = some n →
        ((TransportBuilder.new setters).requestQueue = some queue → queue = requestsName n) ∧
        ((TransportBuilder.new setters).responseQueue = some queue → queue = responsesName n) := by
  obtain ⟨config, hc, base⟩ := TransportBuilder.build_base built
  have valid := TransportBuilder.config_valid hc
  have ⟨_, _, _, serves, requests⟩ := valid
  have ⟨transportId, mode⟩ := RpcBrokerBuilder.build_nodeId transport options plain
  rw [← broker, base] at transportId mode
  replace transportId : (inner b).nodeId = config.nodeId := transportId
  replace mode : (inner b).mode = RpcBrokerBuilder.mode config.mode := mode
  rw [← mode] at serves requests
  have subscribes {name} : Subscribes ρ ω inner b name ↔
      ((inner b).mode.requests ∧ name = responsesName config.nodeId) ∨
        ((inner b).mode.serves ∧ name = requestsName config.nodeId) := by
    rw [← transportId]
    exact subscribes_iff
  rw [valid.named_iff, base]
  constructor
  case mp =>
    intro ⟨subscriptions, replies⟩
    have responses queue (hq : config.responseQueue = some queue) :
        queue = responsesName config.nodeId := by
      obtain ⟨env, sends, replyTo⟩ := sends_request (ρ := ρ) (ω := ω) <|
        requests.trans <| by simp [hq]
      have replies := replies env sends
      simpa [replyTo, TransportBase.from, hq, transportId, eq_comm] using replies
    refine ⟨fun queue hq => ?_, responses⟩
    rcases subscribes.mp <| (subscriptions queue).mpr <| .inl hq with ⟨_, _⟩ | ⟨_, h⟩
    case inr => exact h
    case inl =>
      have serves : (inner b).mode.serves := serves.trans <| by simp [hq]
      rcases (subscriptions _).mp <| subscribes.mpr <| .inr ⟨serves, rfl⟩ with h | h
      · exact Option.some.inj <| hq.symm.trans h
      · exact absurd (responses _ h) requestsName_ne_responsesName
  case mpr =>
    intro ⟨request, response⟩
    constructor
    case subscriptions =>
      intro name
      rw [subscribes, serves, requests]
      simp only [TransportBase.from]
      cases hq : config.requestQueue <;> cases hr : config.responseQueue
      case none.none           => simp
      case none.some queue     => simp [response queue hr, eq_comm]
      case some.none queue     => simp [request queue hq, eq_comm]
      case some.some req res   =>
        simp [request req hq, response res hr, eq_comm (a := name), or_comm]
    case replies =>
      rintro env ⟨net, ⟨as, r⟩, a, ha, rfl⟩
      have hm := Client.requests_of_attempt ⟨_, (client_component b).run r⟩ ha
      have ⟨queue, hq⟩ := Option.isSome_iff_exists.mp <| requests.symm.trans hm
      rw [replyTo_of_sends r.reachable ha, transportId]
      simp [TransportBase.from, hq, response queue hq]

-- Without any other transport, the builder falls back to the one in memory.
def offline : Factories :=
  fun _ _ => .error .connectionLost

theorem configured_queues_are_used_client :
    ∃ transport, (TransportBuilder.new [.uri "memory:", .nodeId "n", .clientMode]).build
        offline = .ok transport ∧
      UsesConfigured Unit Unit (fun _ : Unit => (RpcBrokerBuilder.new transport []).build) ()
        transport.base := by
  refine ⟨_, rfl, ?_⟩
  refine configured_queues_are_used Unit Unit offline
    [.uri "memory:", .nodeId "n", .clientMode] _ rfl []
    (by simp) _ () rfl |>.mpr ?_
  simp [TransportBuilder.new, TransportBuilder.set]

-- The server subscribes to `requests/n`, although it is configured with the queue `jobs`.
theorem explicit_queue_is_not_used :
    ∃ transport, (TransportBuilder.new [.uri "memory:", .nodeId "n", .requestQueue "jobs"]).build
        offline = .ok transport ∧
      transport.base.requestQueue = some "jobs" ∧
      ¬UsesConfigured Unit Unit (fun _ : Unit => (RpcBrokerBuilder.new transport []).build) ()
        transport.base := by
  refine ⟨_, rfl, rfl, fun uses => ?_⟩
  rcases subscribes_iff.mp <| (uses.subscriptions "jobs").mpr <| .inl rfl with ⟨_, h⟩ | ⟨_, h⟩
  all_goals exact absurd h (by decide)

end Network
end MomRpc
