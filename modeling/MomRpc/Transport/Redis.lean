import MomRpc.Transport.Actor

namespace MomRpc

-- What the actor depends on: its transport's id, and `serde_json` with `Msg::get_payload`.
structure Redis where
  transportId : String
  toString    : Envelope → Except String String
  getPayload  : Bytes → Option String
  fromStr     : String → Option Envelope

def Redis.packet (redis : Redis) (env : Envelope) : Except RpcError Packet := do
  let topic := env.address.name
  let payload ← redis.toString env |>.mapError fun err =>
    .transport s!"{redis.transportId}: failed to serialize publish payload: {err}"
  return { topic, payload := utf8 payload }

structure RedisActor where
  subscribePending : Bool := false
  reconnect        : Bool := false

namespace RedisActor

variable (redis : Redis)

def decode (message : Bytes) : Option Envelope :=
  redis.getPayload message |>.bind redis.fromStr

-- What the command `PUBLISH` is issued with, and what is answered. `published` and `subscribed` are
-- the outcomes of `query_async` and `PubSubSink::subscribe`.
def handlePublish (env : Envelope) (published : Except String Unit) :
    Option Packet × Except RpcError Unit :=
  match redis.packet env with
  | .error err => (none, .error err)
  | .ok packet =>
    (some packet, published.mapError fun err =>
      .transport s!"{redis.transportId}: publish failed for topic {packet.topic}: {err}")

theorem handlePublish_fst (env : Envelope) (published : Except String Unit) :
    (handlePublish redis env published).fst = (redis.packet env).toOption := by
  unfold handlePublish
  cases redis.packet env <;> rfl

theorem handlePublish_ne_retryable (env : Envelope) (published : Except String Unit)
    (details : String) :
    (handlePublish redis env published).snd ≠ .error (.transportRetryable details) := by
  intro h
  simp only [handlePublish, Redis.packet] at h
  cases hs : redis.toString env <;> cases published <;> rw [hs] at h <;> cases h

def handleSubscribe (topic : String) (subscribed : Except String Unit) : Except RpcError Unit := do
  subscribed.mapError fun err =>
    .transport s!"{redis.transportId}: failed to subscribe to topic {topic}: {err}"

def start (s : RedisActor) : Cmd → RedisActor × Bool
  | .subscribe _ _ =>
    if s.subscribePending then (s, true) else ({ s with subscribePending := true }, false)
  | _ => (s, false)

def execute (s : RedisActor) (cmd : Cmd) (outcome : Except String Unit) :
    Option (RedisActor × Except RpcError Unit) :=
  match cmd with
  | .publish env _     => some (s, (handlePublish redis env outcome).snd)
  | .subscribe topic _ =>
    some ({ s with subscribePending := false }, handleSubscribe redis topic outcome)
  | .close _           => none

def idle (f : Fanout Unit) : Bool :=
  f.incoming () matches .idle

-- The actor itself fans out the messages of the subscribe stream. `ended` is the end of the stream.
inductive Event
  | message (topic : String) (message : Bytes)
  | trySend (i : ℕ)
  | writeBack
  | ended

def select (s : RedisActor) (f : Fanout Unit) : Event → Option (RedisActor × Fanout Unit)
  | .message topic message => (f.handleIncoming (decode redis) () topic message).map (s, ·)
  | .trySend i             => (f.trySend () i).map (s, ·)
  | .writeBack             => (f.writeBack ()).map (s, ·)
  | .ended                 => if idle f then some ({ s with reconnect := true }, f) else none

def kind : ActorKind Unit RedisActor Event (Except String Unit) where
  caller       := RumqttcTransport.caller
  capacity     := commandCapacity
  drains       := false
  init         := {}
  ready        := idle
  free _       := true
  start        := start
  execute      := execute redis
  task
    | .receiving, s, f, lock, event => (s.select redis f event).map fun (s, f) => (s, f, lock)
    | _, _, _, _, _                 => none
  finish s     := some s
  task_calls phase _ _ _ _ _ _ _ h := by
    cases phase <;> simp at h
    obtain ⟨_, _, _, _, _, rfl⟩ := h
    rfl
  task_stopped _ _ _ _ := rfl
  finish_free _ _ _    := rfl
  start_defers _ cmd _ h := by
    cases cmd
    case subscribe topic resp => exact ⟨topic, resp, rfl⟩
    all_goals cases h

end RedisActor
end MomRpc
