import MomRpc.Broker.Budget
import MomRpc.Transport.Amqp
import MomRpc.Transport.Redis

namespace MomRpc

-- The transports that publish through the library of a broker.
inductive Brokered
  | rumqttc (rumqttc : Rumqttc)
  | redis (redis : Redis)
  | lapin (amqp : Amqp)

namespace Brokered

def Serializes (env : Envelope) : Brokered → Prop
  | .rumqttc t => (t.toVec env).isOk
  | .redis t   => (t.toString env).isOk
  | .lapin t   => (t.toVec env).isOk

-- What a call of `publish` returns, `published` is the outcome of the library's publish call.
def publish (env : Envelope) (published : Except String Unit) : Brokered → Except RpcError Unit
  | .rumqttc t => (t.publish env published).map fun _ => ()
  | .redis t   => (RedisActor.handlePublish t env published).snd
  | .lapin t   => (AmqpActor.doPublish t env published).snd

-- No failure of a publish is classified as retryable.
theorem publish_ne_retryable (transport : Brokered) (env : Envelope)
    (published : Except String Unit) (details : String) :
    transport.publish env published ≠ .error (.transportRetryable details) := by
  cases transport
  case redis t   => exact RedisActor.handlePublish_ne_retryable t env published details
  case lapin t   => exact AmqpActor.doPublish_ne_retryable t env published details
  case rumqttc t =>
    have ne := t.publish_ne_retryable env published details
    simp only [publish]
    cases h : t.publish env published <;> rw [h] at ne
    case ok    => simp [Except.map]
    case error => simpa [Except.map] using ne

end Brokered

-- What the attempts of a call of `request_to_with_timeout` meet with: the correlation ids that are
-- generated, the outcomes of the library's publish calls, what the response channels bring and the
-- hashes for the jitter.
structure Exchange where
  targetNodeId  : String
  method        : String
  reqBytes      : Bytes
  correlationId : ℕ → String
  published     : ℕ → Except String Unit
  replies       : ℕ → Reply
  hash          : ℕ → UInt64

namespace Inner

def env (inner : Inner) (exchange : Exchange) (n : ℕ) : Envelope :=
  inner.request exchange.targetNodeId exchange.method exchange.reqBytes (exchange.correlationId n)

end Inner

-- The attempts publish their envelopes through the transport.
def Exchange.schedule (exchange : Exchange) (inner : Inner) (transport : Brokered) : Schedule where
  published n := transport.publish (inner.env exchange n) (exchange.published n)
  replies     := exchange.replies
  hash        := exchange.hash
  terminal _  := transport.publish_ne_retryable _ _

def Inner.requestThrough (inner : Inner) (transport : Brokered) (timeout : Duration)
    (exchange : Exchange) : Trace Bytes :=
  inner.requestToWithTimeout timeout (.ok exchange.reqBytes) .ok (exchange.schedule inner transport)

end MomRpc
