import MomRpc.Transport.Actor

namespace MomRpc

-- The MQTT transport as a whole: the actor with its calls, and the subscriber map with the
-- fan-out, which the actor runs between two of its own steps. `owners` are the calls that have
-- pushed the senders and hold the receivers, in this order.
structure MqttTransport where
  actor       : MqttActor   := {}
  subscribers : Fanout Unit := {}
  owners      : List ℕ      := []

namespace MqttTransport

variable (rumqttc : Rumqttc) (fromSlice : Bytes → Option Envelope)

def isIdle (f : Fanout Unit) : Bool :=
  f.incoming () matches .idle

-- Whether the actor itself takes the step.
def isActors : MqttActor.Action → Bool
  | .handle | .closed | .poll _ => true
  | _                           => false

def conclude (t : MqttTransport) (actor : MqttActor) (i : ℕ) : MqttTransport :=
  match actor.calls[i]? with
  | none   => { t with actor }
  | some c => { t with actor, subscribers := t.subscribers.conclude t.owners i c }

def step (t : MqttTransport) (act : MqttActor.Action) : Option MqttTransport :=
  if isActors act ∧ ¬isIdle t.subscribers then
    none
  else
    t.actor.next rumqttc act |>.bind fun actor =>
      match act with
      | .call (.subscribe topic)        =>
        let owners := t.owners ++ [t.actor.calls.length]
        some { actor, subscribers := t.subscribers.subscribe topic, owners }
      | .poll (.publish topic message)  =>
        t.subscribers.handleIncoming fromSlice () topic message |>.map fun subscribers =>
          { t with actor, subscribers }
      | .send i | .resume i | .cancel i => some <| t.conclude actor i
      | _                               => some { t with actor }

-- The inbox of a successful call is the caller's.
def inbox (t : MqttTransport) (k : ℕ) (use : Fanout Unit → ℕ → Option (Fanout Unit)) :
    Option MqttTransport := do
  let i ← t.owners[k]?
  let c ← t.actor.calls[i]?
  match c.phase with
  | .returned (.ok _) => (use t.subscribers k).map fun subscribers => { t with subscribers }
  | _                 => none

inductive Action
  | actor (act : MqttActor.Action)
  | trySend (k : ℕ)
  | writeBack
  | recv (k : ℕ)
  | dropInbox (k : ℕ)

def next (t : MqttTransport) : Action → Option MqttTransport
  | .actor act   => t.step rumqttc fromSlice act
  | .trySend k   => (t.subscribers.trySend () k).map fun subscribers => { t with subscribers }
  | .writeBack   => (t.subscribers.writeBack ()).map fun subscribers => { t with subscribers }
  | .recv k      => t.inbox k Fanout.recv
  | .dropInbox k => t.inbox k Fanout.drop

def machine : Machine MqttTransport Action where
  init := {}
  next := next rumqttc fromSlice

end MqttTransport
end MomRpc
