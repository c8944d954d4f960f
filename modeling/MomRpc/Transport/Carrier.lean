import MomRpc.Transport.MqttTransport
import MomRpc.Transport.Subscriptions
import MomRpc.Transport.Wire

namespace MomRpc

open RumqttcTransport (Method MethodCall)

-- What the users of a transport do to it: they call its methods, drop the futures of calls, and use
-- the inboxes that calls of `subscribe` have returned.
inductive Carrier.Use
  | call (method : Method)
  | cancel (i : ℕ)
  | recv (k : ℕ)
  | dropInbox (k : ℕ)

-- A transport as its users see it, all other actions being its own, and as the network sees it: the
-- message that it may send in a step, whatever the outcome, and the one that it receives there.
structure Carrier where
  State   : Type
  Action  : Type
  machine : Machine State Action
  use     : Carrier.Use → Action
  use?    : Action → Option Carrier.Use
  use_use : ∀ u, use? (use u) = some u
  encode  : Envelope → Option Packet
  decode  : Bytes → Option Envelope
  calls   : State → List MethodCall
  owners  : State → List ℕ
  handles : State → List SubscriptionHandle
  retains : State → ℕ → Bool
  departs : State → Action → Option Packet
  arrives : State → Action → Option Packet

namespace Carrier

-- In the run, a message on the topic has been received that is decoded to the envelope.
def Arrived (C : Carrier) (as : List C.Action) (topic : String) (env : Envelope) : Prop :=
  ∃ p, C.machine.Occurs as (fun s a => C.arrives s a = some p) ∧ p.topic = topic ∧
    C.decode p.payload = some env

structure Lawful (C : Carrier) : Prop where
  init    : C.calls C.machine.init = []
  -- The calls keep their places, and each has been made by a user.
  keeps   : ∀ s a s' (i : ℕ) (c : MethodCall), C.machine.Reachable s →
    C.machine.next s a = some s' → (C.calls s)[i]? = some c →
    ∃ c' : MethodCall, (C.calls s')[i]? = some c' ∧ c'.method = c.method
  called  : ∀ s a s' (method : Method), C.machine.next s a = some s' →
    C.use? a = some (.call method) →
    ∃ c : MethodCall, (C.calls s')[(C.calls s).length]? = some c ∧ c.method = method
  stems   : ∀ s a s' (i : ℕ) (c' : MethodCall), C.machine.Reachable s →
    C.machine.next s a = some s' → (C.calls s')[i]? = some c' →
    (∃ c : MethodCall, (C.calls s)[i]? = some c ∧ c'.method = c.method) ∨
      C.use? a = some (.call c'.method)
  -- Nothing is sent but for a call of `publish`.
  departs : ∀ s a s' p, C.machine.Reachable s → C.machine.next s a = some s' →
    C.departs s a = some p →
    ∃ (i : ℕ) (c : MethodCall) (env : Envelope), (C.calls s)[i]? = some c ∧
      c.method = .publish env ∧ C.encode env = some p
  -- An inbox has nothing but what has been received on its topic.
  arrives : ∀ as s (k : ℕ) (h : SubscriptionHandle) (env : Envelope), C.machine.Run as s →
    (C.handles s)[k]? = some h → env ∈ h.inbox.contents → C.Arrived as h.subscription.name env
  own     : ∀ s a p, C.arrives s a = some p → C.use? a = none
  owned   : ∀ s (k i : ℕ) (h : SubscriptionHandle), C.machine.Reachable s →
    (C.owners s)[k]? = some i → (C.handles s)[k]? = some h →
    ∃ c : MethodCall, (C.calls s)[i]? = some c ∧ c.method = .subscribe h.subscription.name

-- The call has not given up the receiver of the inbox.
def Holding (calls : List MethodCall) (handles : List SubscriptionHandle) (k i : ℕ) : Prop :=
  ∀ (c : MethodCall) (h : SubscriptionHandle), calls[i]? = some c → c.fails = false →
    handles[k]? = some h → h.inbox.held

-- Whoever has called `subscribe` with success has the inbox, and uses it at any time.
structure Receives (C : Carrier) : Prop where
  length    : ∀ s, C.machine.Reachable s → (C.owners s).length = (C.handles s).length
  distinct  : ∀ s, C.machine.Reachable s → (C.owners s).Nodup
  owns      : ∀ s a s' (k i : ℕ), C.machine.next s a = some s' → (C.owners s)[k]? = some i →
    (C.owners s')[k]? = some i
  returned  : ∀ s a s' (i : ℕ) (c : MethodCall) result, C.machine.Reachable s →
    C.machine.next s a = some s' → (C.calls s)[i]? = some c → c.phase = .returned result →
    ∃ c' : MethodCall, (C.calls s')[i]? = some c' ∧ c'.phase = .returned result
  pushed    : ∀ s (i : ℕ) (c : MethodCall) topic, C.machine.Reachable s →
    (C.calls s)[i]? = some c → c.method = .subscribe topic → c.phase = .returned (.ok ()) →
    i ∈ C.owners s
  holds     : ∀ s a s' (k i : ℕ), C.machine.Reachable s → C.machine.next s a = some s' →
    (C.owners s')[k]? = some i → C.use? a ≠ some (.dropInbox k) →
    ((C.owners s)[k]? = some i → Holding (C.calls s) (C.handles s) k i) →
    Holding (C.calls s') (C.handles s') k i
  recv      : ∀ s (k i : ℕ) (c : MethodCall) (h : SubscriptionHandle) env inbox,
    (C.owners s)[k]? = some i → (C.calls s)[i]? = some c → c.phase = .returned (.ok ()) →
    (C.handles s)[k]? = some h → h.inbox.recv = some (env, inbox) →
    ∃ s', C.machine.next s (C.use (.recv k)) = some s'
  dropInbox : ∀ s (k i : ℕ) (c : MethodCall), (C.owners s)[k]? = some i →
    (C.calls s)[i]? = some c → c.phase = .returned (.ok ()) → k < (C.handles s).length →
    ∃ s', C.machine.next s (C.use (.dropInbox k)) = some s'

-- `retained` tells that somebody keeps the sender of a handle, which is never given back.
structure Releases (C : Carrier) (retained : C.State → ℕ → Prop) : Prop where
  retains : ∀ s k, C.retains s k → retained s k
  stays   : ∀ s a s' k, C.machine.Reachable s → C.machine.next s a = some s' →
    k < (C.handles s).length → ¬retained s k → ¬retained s' k
  queued  : ∀ s a s' k, C.machine.Reachable s → C.machine.next s a = some s' →
    k < (C.handles s).length → ¬retained s k →
    queued (C.handles s') k ≤ queued (C.handles s) k ∧
      (C.use? a = some (.recv k) → queued (C.handles s') k < queued (C.handles s) k)

end Carrier

-- Somebody keeps the sender of the handle: the map, or one of the workers.
def Fanout.retains {ι : Type} (f : Fanout ι) (workers : List ι) (k : ℕ) : Bool :=
  let registered := f.handles[k]?.any fun h =>
    ((f.subscribers h.subscription.name).getD []).contains k
  let sending (w : ι) :=
    match f.incoming w with
    | .idle                         => false
    | .sending _ _ _ rest survivors => (rest ++ survivors).contains k
  registered || workers.any sending

def Rumqttc.sends (rumqttc : Rumqttc) (env : Envelope) : Option Packet :=
  (rumqttc.publish env (rumqttc.published env.address.name)).toOption

namespace MqttTransport

def use : Carrier.Use → Action
  | .call method => .actor (.call method)
  | .cancel i    => .actor (.cancel i)
  | .recv k      => .recv k
  | .dropInbox k => .dropInbox k

def use? : Action → Option Carrier.Use
  | .actor (.call method) => some (.call method)
  | .actor (.cancel i)    => some (.cancel i)
  | .recv k               => some (.recv k)
  | .dropInbox k          => some (.dropInbox k)
  | _                     => none

-- `AsyncClient` takes the message when the actor handles the command.
def departs (rumqttc : Rumqttc) (t : MqttTransport) : Action → Option Packet
  | .actor .handle =>
    match t.actor.commands.queue with
    | .publish env _ :: _ => rumqttc.sends env
    | _                   => none
  | _ => none

def arrives : Action → Option Packet
  | .actor (.poll (.publish topic payload)) => some { topic, payload }
  | _                                       => none

def carrier (rumqttc : Rumqttc) (fromSlice : Bytes → Option Envelope) : Carrier where
  State     := MqttTransport
  Action    := Action
  machine   := machine rumqttc fromSlice
  use       := use
  use?      := use?
  use_use u := by cases u <;> rfl
  encode    := rumqttc.sends
  decode    := fromSlice
  calls t   := t.actor.calls
  owners    := owners
  handles t := t.subscribers.handles
  retains t := t.subscribers.retains [()]
  departs   := departs rumqttc
  arrives _ := arrives

end MqttTransport

namespace Actor

variable {ι σ α τ : Type} {kind : ActorKind ι σ α τ}

def use : Carrier.Use → Action α τ
  | .call method => .call method
  | .cancel i    => .cancel i
  | .recv k      => .recv k
  | .dropInbox k => .dropInbox k

def use? : Action α τ → Option Carrier.Use
  | .call method => some (.call method)
  | .cancel i    => some (.cancel i)
  | .recv k      => some (.recv k)
  | .dropInbox k => some (.dropInbox k)
  | _            => none

-- The library is given the message when the actor executes the command.
def departs (sends : Envelope → τ → Option Packet) (m : Actor kind) : Action α τ → Option Packet
  | .execute outcome =>
    match m.phase with
    | .handling (.publish env _) => sends env outcome
    | _                          => none
  | _ => none

def arrives (received : σ → α → Option Packet) (m : Actor kind) : Action α τ → Option Packet
  | .task a => received m.state a
  | _       => none

def carrier (kind : ActorKind ι σ α τ) (encode : Envelope → Option Packet)
    (sends : Envelope → τ → Option Packet) (decode : Bytes → Option Envelope)
    (received : σ → α → Option Packet) (retains : Actor kind → ℕ → Bool) : Carrier where
  State     := Actor kind
  Action    := Action α τ
  machine   := machine kind
  use       := use
  use?      := use?
  use_use u := by cases u <;> rfl
  encode    := encode
  decode    := decode
  calls     := calls
  owners    := owners
  handles m := m.subscribers.handles
  retains   := retains
  departs   := departs sends
  arrives   := arrives received

end Actor

def RedisActor.received (_ : RedisActor) : Event → Option Packet
  | .message topic payload => some { topic, payload }
  | _                      => none

def RedisActor.carrier (redis : Redis) : Carrier :=
  Actor.carrier (kind redis) (fun env => (redis.packet env).toOption)
    (fun env published => (handlePublish redis env published).fst) (decode redis) received
    fun m => m.subscribers.retains [()]

-- A delivery comes from the queue of the consumer.
def AmqpActor.received (s : AmqpActor) : Event → Option Packet
  | .deliver w payload _ => s.consumers[w]?.map fun c => { topic := c.queue, payload }
  | _                    => none

def AmqpActor.sends (amqp : Amqp) (env : Envelope) : Outcome → Option Packet
  | .publish published => (doPublish amqp env published).fst
  | .subscribe _ _     => none

def AmqpActor.carrier (amqp : Amqp) : Carrier :=
  Actor.carrier (kind amqp) (fun env => (amqp.packet env).toOption) (sends amqp) amqp.fromSlice
    received
    fun m k =>
      let sending (c : Consumer) :=
        match c.phase with
        | .sending _ senders => senders.contains k
        | _                  => false
      m.subscribers.retains [] k || m.state.consumers.any sending

def DdsEnvelope.packet (ddsEnv : DdsEnvelope) : Packet where
  topic   := ddsEnv.topic
  payload := ddsEnv.data

def DdsActor.received (_ : DdsActor) : Event → Option Packet
  | .sample topic payload => some { topic, payload }
  | _                     => none

def DdsActor.carrier (dds : Dds) : Carrier :=
  Actor.carrier (kind dds) (fun env => (tryFrom dds env).toOption.map DdsEnvelope.packet)
    (fun env _ => (tryFrom dds env).toOption.map DdsEnvelope.packet) dds.fromSlice received
    fun m => m.subscribers.retains <| List.range m.state.readers.length

end MomRpc
