import MomRpc.Transport.Dds
import MomRpc.Transport.MqttTransport
import MomRpc.Transport.Redis

namespace MomRpc

open RumqttcTransport (MethodCall)

-- A transport that keeps its senders in a subscriber map. `fans` is the step of the fan-out, if
-- any, that is part of a step of the transport.
structure SubscriberMap (S A ι : Type) where
  machine : Machine S A
  decode  : Bytes → Option Envelope
  fanout  : S → Fanout ι
  fans    : S → A → Option (Fanout.Action ι)

namespace SubscriberMap

variable {S A ι : Type} (map : SubscriberMap S A ι)

-- What the run has done to the map, to the inboxes and to the workers.
def history (as : List A) : List (Fanout.Action ι) :=
  map.machine.outputs map.fans map.machine.init as

structure Lawful [DecidableEq ι] : Prop where
  init : map.fanout map.machine.init = {}
  step : ∀ s a s', map.machine.next s a = some s' →
    (Fanout.machine ι map.decode).next? (map.fanout s) (map.fans s a) = some (map.fanout s')

variable {map} {s : S} {as : List A}

theorem Lawful.run [DecidableEq ι] (law : map.Lawful) (r : map.machine.Run as s) :
    (Fanout.machine ι map.decode).Run (map.history as) (map.fanout s) := by
  have he := Machine.exec_outputs law.step r
  rwa [law.init] at he

end SubscriberMap

-- A call that ends drops at most its own receiver.
def Fanout.concludes {ι : Type} (f : Fanout ι) (owners : List ℕ) (i : ℕ) (c : MethodCall) :
    Option (Fanout.Action ι) := do
  let k ← owners.findIdx? (· = i)
  if c.fails ∧ k < f.handles.length then some (.drop k) else none

theorem Fanout.next?_concludes {ι : Type} [DecidableEq ι] {decode : Bytes → Option Envelope}
    {f : Fanout ι} {owners : List ℕ} {i : ℕ} {c : MethodCall} :
    (machine ι decode).next? f (f.concludes owners i c) = some (f.conclude owners i c) := by
  unfold concludes conclude
  cases owners.findIdx? (· = i)
  case none => rfl
  case some k =>
    by_cases hc : c.fails <;> by_cases hk : k < f.handles.length <;>
      simp [hc, hk, Machine.next?, machine, next, drop]

namespace MqttTransport

-- The call whose own step it is, if it can end by the step.
def ends? : MqttActor.Action → Option ℕ
  | .send i | .resume i | .cancel i => some i
  | _                               => none

def fans (rumqttc : Rumqttc) (t : MqttTransport) : Action → Option (Fanout.Action Unit)
  | .actor (.call (.subscribe topic))       => some (.subscribe topic)
  | .actor (.poll (.publish topic message)) => some (.incoming () topic message)
  | .actor act                              => do
    let i     ← ends? act
    let actor ← t.actor.next rumqttc act
    let c     ← actor.calls[i]?
    t.subscribers.concludes t.owners i c
  | .trySend k   => some (.trySend () k)
  | .writeBack   => some (.writeBack ())
  | .recv k      => some (.recv k)
  | .dropInbox k => some (.drop k)

def subscriberMap (rumqttc : Rumqttc) (fromSlice : Bytes → Option Envelope) :
    SubscriberMap MqttTransport Action Unit where
  machine := machine rumqttc fromSlice
  decode  := fromSlice
  fanout  := subscribers
  fans    := fans rumqttc

end MqttTransport

namespace Actor

variable {ι σ α τ : Type} {kind : ActorKind ι σ α τ}

def ends? : Action α τ → Option ℕ
  | .send i | .resume i | .cancel i => some i
  | _                               => none

-- `fan` is the part of the fan-out in an event of the tasks.
def fans (fan : σ → α → Option (Fanout.Action ι)) (m : Actor kind) :
    Action α τ → Option (Fanout.Action ι)
  | .register i  => do
    let c ← m.calls[i]?
    match c.method with
    | .subscribe topic => some (.subscribe topic)
    | _                => none
  | .recv k      => some (.recv k)
  | .dropInbox k => some (.drop k)
  | .task a      => fan m.state a
  | act          => do
    let i  ← ends? act
    let m' ← m.next act
    let c  ← m'.calls[i]?
    m.subscribers.concludes m.owners i c

def subscriberMap (kind : ActorKind ι σ α τ) (decode : Bytes → Option Envelope)
    (fan : σ → α → Option (Fanout.Action ι)) : SubscriberMap (Actor kind) (Action α τ) ι where
  machine := machine kind
  decode  := decode
  fanout  := subscribers
  fans    := fans fan

end Actor

namespace RedisActor

def fan (_ : RedisActor) : Event → Option (Fanout.Action Unit)
  | .message topic message => some (.incoming () topic message)
  | .trySend i             => some (.trySend () i)
  | .writeBack             => some (.writeBack ())
  | .ended                 => none

def subscriberMap (redis : Redis) :=
  Actor.subscriberMap (kind redis) (decode redis) fan

end RedisActor

namespace DdsActor

def fan (s : DdsActor) : Event → Option (Fanout.Action ℕ)
  | .take r       => do
    let reader ← s.readers[r]?
    let data   ← reader.samples.head?
    some (.incoming r reader.topic data)
  | .trySend r i  => some (.trySend r i)
  | .writeBack r  => some (.writeBack r)
  | .sample _ _ | .ended _ => none

def subscriberMap (dds : Dds) :=
  Actor.subscriberMap (kind dds) dds.fromSlice fan

end DdsActor
end MomRpc
