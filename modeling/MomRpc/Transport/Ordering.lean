import MomRpc.Transport.Carrier

namespace MomRpc

-- How a transport serves the subscribers of a topic: the message that it takes up for them in a
-- step, whether it has a single worker for the topic, and whether it goes on serving a subscription
-- while no worker has anything left to send to it.
structure Carrier.FanOut (C : Carrier) where
  takes   : String → C.State → C.Action → Option Envelope
  sole    : C.State → String → Prop
  settled : C.State → String → ℕ → Prop

-- From the step on that has pushed its sender, an inbox is given what is taken up on its topic, in
-- this order and without a gap, and as long as the subscription is served it is given all of that.
def Carrier.InOrder (C : Carrier) (F : C.FanOut) : Prop :=
  ∀ s a s' as t (h : SubscriptionHandle), C.machine.Reachable s → C.machine.next s a = some s' →
    (C.handles s').length = (C.handles s).length + 1 → C.machine.exec s' as = some t →
    (C.handles t)[(C.handles s).length]? = some h → F.sole t h.subscription.name →
      h.inbox.contents <+: C.machine.outputs (F.takes h.subscription.name) s' as ∧
        (h.inbox.held → F.settled t h.subscription.name (C.handles s).length →
          h.inbox.contents = C.machine.outputs (F.takes h.subscription.name) s' as)

-- The sender is in the map, and no message on the topic is being fanned out.
def Fanout.settled {ι : Type} (f : Fanout ι) (topic : String) (k : ℕ) : Prop :=
  (∃ senders, f.subscribers topic = some senders ∧ k ∈ senders) ∧
    ∀ w env senders rest survivors, f.incoming w ≠ .sending topic env senders rest survivors

def Packet.on (decode : Bytes → Option Envelope) (topic : String) (p : Packet) : Option Envelope :=
  if p.topic = topic then decode p.payload else none

def MqttTransport.fanOut (rumqttc : Rumqttc) (fromSlice : Bytes → Option Envelope) :
    (carrier rumqttc fromSlice).FanOut where
  takes topic _ act := (arrives act).bind (·.on fromSlice topic)
  sole _ _          := True
  settled t         := t.subscribers.settled

def Actor.takes {ι σ α τ : Type} {kind : ActorKind ι σ α τ}
    (taskTakes : String → σ → α → Option Envelope) (topic : String) (m : Actor kind) :
    Action α τ → Option Envelope
  | .task a => taskTakes topic m.state a
  | _       => none

def RedisActor.takes (redis : Redis) (topic : String) (s : RedisActor) (event : Event) :
    Option Envelope :=
  (s.received event).bind (·.on (decode redis) topic)

def RedisActor.fanOut (redis : Redis) : (carrier redis).FanOut where
  takes     := Actor.takes (takes redis)
  sole _ _  := True
  settled m := m.subscribers.settled

-- What arrives goes to all readers on the topic, each of which takes it up in turn.
def DdsActor.takes (dds : Dds) (topic : String) (s : DdsActor) : Event → Option Envelope
  | .take r => do
    let reader ← s.readers[r]?
    let data ← reader.samples.head?
    if reader.topic = topic then dds.fromSlice data else none
  | _ => none

def DdsActor.reads (s : DdsActor) (r : ℕ) (topic : String) : Prop :=
  ∃ reader, s.readers[r]? = some reader ∧ reader.topic = topic

def DdsActor.fanOut (dds : Dds) : (carrier dds).FanOut where
  takes        := Actor.takes (takes dds)
  sole m topic := ∀ r r', m.state.reads r topic → m.state.reads r' topic → r = r'
  settled m    := m.subscribers.settled

-- A consumer task takes up a message when it gets hold of the subscriber map.
def AmqpActor.takes (topic : String) (s : AmqpActor) : Event → Option Envelope
  | .lock w => do
    let c ← s.consumers[w]?
    match c.phase with
    | .locking env => if c.queue = topic then some env else none
    | _            => none
  | _ => none

def AmqpActor.settled (s : AmqpActor) (topic : String) (k : ℕ) : Prop :=
  ∀ c ∈ s.consumers, c.queue = topic → ∀ env senders, c.phase = .sending env senders → k ∉ senders

-- When the actor stops, it aborts the consumer tasks.
def AmqpActor.fanOut (amqp : Amqp) : (carrier amqp).FanOut where
  takes             := Actor.takes takes
  sole _ _          := True
  settled m topic k := m.phase ≠ .stopped ∧ m.state.settled topic k

end MomRpc
