import MomRpc.Broker.Publishing
import MomRpc.Broker.Theorems.Budget
import MomRpc.Retry.Theorems.Exact
import MomRpc.Transport.Theorems.Answers
import MomRpc.Transport.Theorems.Callers
import MomRpc.Transport.Theorems.Classification

namespace MomRpc

open RumqttcTransport

section Transports

variable {transport : Brokered} {env : Envelope} {published : Except String Unit}
  {result : Except RpcError Unit} {i : ℕ} {c : MethodCall}

theorem Brokered.publish_ok_iff :
    transport.publish env published = .ok () ↔ transport.Serializes env ∧ published.isOk := by
  cases transport
  case rumqttc t =>
    simp only [publish, Rumqttc.publish, Rumqttc.packet, Serializes]
    cases t.toVec env <;> cases published <;> simp [Except.isOk, Except.toBool, Except.mapError,
      Except.map, pure, Except.pure, bind, Except.bind]
  case redis t =>
    simp only [publish, RedisActor.handlePublish, Redis.packet, Serializes]
    cases t.toString env <;> cases published <;> simp [Except.isOk, Except.toBool,
      Except.mapError, pure, Except.pure, bind, Except.bind]
  case lapin t =>
    simp only [publish, AmqpActor.doPublish, Amqp.packet, Serializes]
    cases t.toVec env <;> cases published <;> simp [Except.isOk, Except.toBool,
      Except.mapError, pure, Except.pure, bind, Except.bind]

-- A call of `publish` returns what the actor answers when it executes the command of the call.
theorem Actor.returned_of_handled {ι σ α τ : Type} {kind : ActorKind ι σ α τ} {m s : Actor kind}
    {as : List (Actor.Action α τ)} {outcome : τ} (hk : kind.caller = RumqttcTransport.caller)
    (r : (Actor.machine kind).Run as m) (h : m.calls[i]? = some c)
    (method : c.method = .publish env)
    (returned : c.phase = .returned result) (handled : Actor.Handled kind as i env s outcome) :
    ∃ state, kind.execute s.state (.publish env i) outcome = some (state, result) := by
  cases Actor.answered r h method
  case unheard unhandled _ _ => exact absurd handled <| unhandled s outcome
  case answered state answer _ once executed _ received =>
    obtain ⟨rfl, rfl⟩ := once s outcome handled
    have ⟨c₀, method₀, he⟩ := received result returned
    have he : c = MethodCall.receive c₀ _ := hk ▸ he
    simp only [MethodCall.receive, method₀, method] at he
    have eq : result = answer := by
      cases answer <;> simpa [Except.map, he, eq_comm] using returned
    exact ⟨state, eq ▸ executed⟩

theorem redis_publish_returns {redis : Redis} {m s : Actor (RedisActor.kind redis)}
    {as : List (Actor.Action RedisActor.Event (Except String Unit))}
    (r : (Actor.machine (RedisActor.kind redis)).Run as m) (h : m.calls[i]? = some c)
    (method : c.method = .publish env) (returned : c.phase = .returned result)
    (handled : Actor.Handled (RedisActor.kind redis) as i env s published) :
    result = (Brokered.redis redis).publish env published := by
  have ⟨_, executed⟩ := Actor.returned_of_handled rfl r h method returned handled
  cases executed
  rfl

theorem amqp_publish_returns {amqp : Amqp} {m s : Actor (AmqpActor.kind amqp)}
    {as : List (Actor.Action AmqpActor.Event AmqpActor.Outcome)}
    (r : (Actor.machine (AmqpActor.kind amqp)).Run as m) (h : m.calls[i]? = some c)
    (method : c.method = .publish env) (returned : c.phase = .returned result)
    (handled : Actor.Handled (AmqpActor.kind amqp) as i env s (.publish published)) :
    result = (Brokered.lapin amqp).publish env published := by
  have ⟨_, executed⟩ := Actor.returned_of_handled rfl r h method returned handled
  have executed : s.state.execute amqp (.publish env i) (.publish published) = some _ := executed
  simp only [AmqpActor.execute] at executed
  split at executed <;> cases executed
  rfl

-- The actor of the transport for MQTT answers at once if the library refuses the topic.
theorem mqtt_publish_refused {rumqttc : Rumqttc} {m : MqttActor} {err : String}
    (h : rumqttc.publishError env.address.name = some err) :
    m.handlePublish rumqttc env i =
      m.reply i (((Brokered.rumqttc rumqttc).publish env (.error err)).map fun _ => .ok) := by
  simp only [MqttActor.handlePublish, Rumqttc.published, h, Brokered.publish, Rumqttc.publish]
  cases rumqttc.packet env <;> rfl

-- In all runs of an actor, no call of `publish` fails with a retryable error, and one whose command
-- is executed returns what has become of it.
def Actor.Publishes {ι σ α τ : Type} (kind : ActorKind ι σ α τ) (outcome : Except String Unit → τ)
    (publish : Envelope → Except String Unit → Except RpcError Unit) : Prop :=
  ∀ as (m : Actor kind) (i : ℕ) (c : MethodCall) env result, (Actor.machine kind).Run as m →
    m.calls[i]? = some c → c.method = .publish env → c.phase = .returned result →
    ¬Retryable result ∧ ∀ s published, Actor.Handled kind as i env s (outcome published) →
      result = publish env published

def MqttActor.Publishes (rumqttc : Rumqttc)
    (publish : Envelope → Except String Unit → Except RpcError Unit) : Prop :=
  (∀ m (i : ℕ) (c : MethodCall) env result, (MqttActor.machine rumqttc).Reachable m →
    m.calls[i]? = some c → c.method = .publish env → c.phase = .returned result →
    ¬Retryable result) ∧
  ∀ (m : MqttActor) (i : ℕ) env err, rumqttc.publishError env.address.name = some err →
    m.handlePublish rumqttc env i = m.reply i ((publish env (.error err)).map fun _ => .ok)

-- The calls of `publish` behave as it is said above.
def Brokered.Publishes (transport : Brokered) : Prop :=
  match transport with
  | .rumqttc t => MqttActor.Publishes t transport.publish
  | .redis t   => Actor.Publishes (RedisActor.kind t) id transport.publish
  | .lapin t   => Actor.Publishes (AmqpActor.kind t) .publish transport.publish

theorem Brokered.publishes (transport : Brokered) : transport.Publishes := by
  cases transport
  case rumqttc t =>
    refine ⟨fun m i c env result r h _ returned => ?_, fun m i env err => mqtt_publish_refused⟩
    exact (MqttActor.terminal r h).right result returned
  case redis t =>
    intro as m i c env result r h method returned
    refine ⟨(RedisActor.terminal t r.reachable h).right result returned, fun s published => ?_⟩
    exact redis_publish_returns r h method returned
  case lapin t =>
    intro as m i c env result r h method returned
    refine ⟨(AmqpActor.terminal t r.reachable h).right result returned, fun s published => ?_⟩
    exact amqp_publish_returns r h method returned

end Transports

namespace Inner

variable {inner : Inner} {cfg : RetryConfig} {transport : Brokered} {timeout : Duration}
  {exchange : Exchange} {n : ℕ}

-- The library's publish call returns an error.
def FailsToPublish (inner : Inner) (transport : Brokered) (exchange : Exchange) (n : ℕ) : Prop :=
  transport.Serializes (inner.env exchange n) ∧ ¬(exchange.published n).isOk

-- The envelope of the attempt is published, and its response arrives in time.
def IsAnswered (inner : Inner) (transport : Brokered) (timeout : Duration) (exchange : Exchange)
    (n : ℕ) (payload : Bytes) : Prop :=
  transport.Serializes (inner.env exchange n) ∧ (exchange.published n).isOk ∧
    ∃ delay, exchange.replies n = some (delay, some payload) ∧ delay.secs ≤ timeout.secs

-- Failures of a publish are retryable: the call goes on after each of them while attempts remain,
-- and it succeeds with the first attempt after it that is answered.
structure RetriesPublish (inner : Inner) (cfg : RetryConfig) (transport : Brokered)
    (timeout : Duration) (exchange : Exchange) (trace : Trace Bytes) : Prop where
  classified : ∀ n < trace.operations, inner.FailsToPublish transport exchange n →
    Retryable (transport.publish (inner.env exchange n) (exchange.published n))
  goesOn     : ∀ n < trace.operations, inner.FailsToPublish transport exchange n →
    n < cfg.maxAttempts.toNat → n + 1 < trace.operations
  succeeds   : ∀ n < trace.operations, inner.FailsToPublish transport exchange n →
    ∀ k payload, n < k → k ≤ cfg.maxAttempts.toNat →
      (∀ j, n < j → j < k → inner.FailsToPublish transport exchange j ∨
        ¬InTime timeout (exchange.replies j)) →
      inner.IsAnswered transport timeout exchange k payload → trace.outcome = some (.ok payload)

-- The call makes its attempt `n`: the ones before it have been published without being answered,
-- and the delays between them have fit.
structure Reaches (inner : Inner) (cfg : RetryConfig) (transport : Brokered) (timeout : Duration)
    (exchange : Exchange) (n : ℕ) : Prop where
  requests : inner.mode.requests
  within   : n ≤ cfg.maxAttempts.toNat
  before   : ∀ j < n, transport.Serializes (inner.env exchange j) ∧ (exchange.published j).isOk ∧
    ¬InTime timeout (exchange.replies j) ∧ cfg.Fits (exchange.hash j) j

theorem expires_iff : (exchange.schedule inner transport).Expires timeout n ↔
    transport.Serializes (inner.env exchange n) ∧ (exchange.published n).isOk ∧
      ¬InTime timeout (exchange.replies n) := by
  rw [← and_assoc, ← Brokered.publish_ok_iff]
  rfl

theorem reaches_iff (hc : inner.retryConfig = some cfg) :
    n < (inner.requestThrough transport timeout exchange).operations ↔
      inner.Reaches cfg transport timeout exchange n := by
  rw [requestThrough, requestToWithTimeout]
  split
  case isFalse server =>
    exact iff_of_false (Nat.not_lt_zero n) fun reaches => server reaches.requests
  case isTrue requests =>
    have ⟨_, at'⟩ := RetryLoop.attempts cfg
      (inner.requestToInnerWithTimeout timeout (exchange.schedule inner transport)) exchange.hash
    have made := at'.made_iff_fits (n := n)
    simp only [requestToInner_retryable_iff hc, expires_iff, and_assoc] at made
    rw [hc]
    exact made.trans ⟨fun h => ⟨requests, h.left, h.right⟩,
      fun reaches => ⟨reaches.within, reaches.before⟩⟩

theorem retriesPublish_iff (hc : inner.retryConfig = some cfg) :
    inner.RetriesPublish cfg transport timeout exchange
        (inner.requestThrough transport timeout exchange) ↔
      ∀ n, inner.Reaches cfg transport timeout exchange n →
        ¬inner.FailsToPublish transport exchange n := by
  simp only [← reaches_iff hc]
  constructor
  case mp  =>
    intro retries n made fails
    have ⟨details, he⟩ := retries.classified n made fails
    exact Brokered.publish_ne_retryable _ _ _ details he
  case mpr =>
    intro h
    constructor
    case classified => exact fun n made fails => absurd fails <| h n made
    case goesOn     => exact fun n made fails => absurd fails <| h n made
    case succeeds   => exact fun n made fails => absurd fails <| h n made

-- The calls that cope with the failures of their publishes are those that do not have any.
theorem failed_publishes_retried (hc : inner.retryConfig = some cfg) (transport : Brokered)
    (timeout : Duration) (exchange : Exchange) :
    transport.Publishes ∧
    (inner.RetriesPublish cfg transport timeout exchange
        (inner.requestThrough transport timeout exchange) ↔
      ∀ n, inner.Reaches cfg transport timeout exchange n →
        ¬inner.FailsToPublish transport exchange n) :=
  ⟨transport.publishes, retriesPublish_iff hc⟩

def loneRetrying : Inner where
  nodeId      := "c"
  mode        := .client
  retryConfig := some {}

-- The first publish fails, all the others succeed and are answered at once.
def loneExchange : Exchange where
  targetNodeId  := "s"
  method        := "m"
  reqBytes      := []
  correlationId := toString
  published n   := if n = 0 then .error "Connection refused" else .ok ()
  replies _     := some (.fromSecs 0, some [1])
  hash _        := 0

theorem failed_publishes_retried_lone :
    (Brokered.redis loneRedis).Publishes ∧
    (loneRetrying.RetriesPublish {} (.redis loneRedis) (.fromSecs 30) loneExchange
        (loneRetrying.requestThrough (.redis loneRedis) (.fromSecs 30) loneExchange) ↔
      ∀ n, loneRetrying.Reaches {} (.redis loneRedis) (.fromSecs 30) loneExchange n →
        ¬loneRetrying.FailsToPublish (.redis loneRedis) loneExchange n) :=
  failed_publishes_retried rfl (.redis loneRedis) (.fromSecs 30) loneExchange

-- The failure of the first publish ends the call.
theorem failed_publish_ends_call :
    ¬loneRetrying.RetriesPublish {} (.redis loneRedis) (.fromSecs 30) loneExchange
      (loneRetrying.requestThrough (.redis loneRedis) (.fromSecs 30) loneExchange) := by
  intro retries
  have reaches : loneRetrying.Reaches {} (.redis loneRedis) (.fromSecs 30) loneExchange 0 :=
    ⟨rfl, Nat.zero_le _, fun j lt => absurd lt (Nat.not_lt_zero j)⟩
  exact retriesPublish_iff rfl |>.mp retries 0 reaches ⟨rfl, by decide⟩

end Inner
end MomRpc
