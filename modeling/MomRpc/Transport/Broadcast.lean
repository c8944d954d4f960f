import MomRpc.Transport.Fanout
import MomRpc.Transport.Memory

namespace MomRpc

-- A message as a transport publishes it: its topic is the address of the envelope in it.
structure Message (decode : Bytes → Option Envelope) where
  topic     : String
  payload   : Bytes
  env       : Envelope
  decoded   : decode payload = some env
  addressed : env.address.name = topic

-- What the transports are for, seen from the inboxes of the subscribers alone: each message goes to
-- all subscribers of its topic that still exist.
namespace Broadcast

variable {ι : Type} {decode : Bytes → Option Envelope}

-- Each of the steps is atomic, `w` is the task that fans out the message.
inductive Action (ι : Type) (decode : Bytes → Option Envelope)
  | subscribe (topic : String)
  | incoming (w : ι) (message : Message decode)
  | recv (i : ℕ)
  | drop (i : ℕ)

def offer (env : Envelope) (h : SubscriptionHandle) : SubscriptionHandle :=
  { h with inbox := (h.inbox.trySend env).getD h.inbox }

def deliver (handles : List SubscriptionHandle) (message : Message decode) :
    List SubscriptionHandle :=
  handles.map fun h => if h.subscription.name = message.topic then offer message.env h else h

def next (handles : List SubscriptionHandle) : Action ι decode → Option (List SubscriptionHandle)
  | .subscribe topic    => some <| handles ++ [{ subscription := ⟨topic⟩ }]
  | .incoming _ message => some <| deliver handles message
  | .recv i             => do
    let h ← handles[i]?
    let (_, inbox) ← h.inbox.recv
    some <| handles.set i { h with inbox }
  | .drop i             => handles[i]?.map fun h => handles.set i { h with inbox := h.inbox.drop }

def machine (ι : Type) (decode : Bytes → Option Envelope) :
    Machine (List SubscriptionHandle) (Action ι decode) where
  init := []
  next := next

def NoneFull (handles : List SubscriptionHandle) : Prop :=
  ∀ h ∈ handles, h.inbox.HasRoom

instance (handles : List SubscriptionHandle) : Decidable (NoneFull handles) :=
  inferInstanceAs (Decidable (∀ h ∈ handles, _))

end Broadcast

namespace Fanout

variable {ι : Type} [DecidableEq ι] {decode : Bytes → Option Envelope}

-- A whole call of `handle_incoming`.
def steps (f : Fanout ι) : Broadcast.Action ι decode → List (Action ι)
  | .subscribe topic    => [.subscribe topic]
  | .incoming w message =>
    .incoming w message.topic message.payload ::
      match f.subscribers message.topic with
      | some senders => senders.map (.trySend w) ++ [.writeBack w]
      | none         => []
  | .recv i             => [.recv i]
  | .drop i             => [.drop i]

def atomic (ι : Type) [DecidableEq ι] (decode : Bytes → Option Envelope) :
    Machine (Fanout ι) (Broadcast.Action ι decode) where
  init     := {}
  next f a := (machine ι decode).exec f (f.steps a)

end Fanout

namespace MemoryHub

variable {ι : Type} {decode : Bytes → Option Envelope}

-- A whole call of `publish`, the `p`-th one.
def steps (hub : MemoryHub ℕ) (p : ℕ) : Broadcast.Action ι decode → List (Action ℕ)
  | .subscribe topic    => [.subscribe ⟨topic⟩]
  | .incoming _ message =>
    let senders := hub.subscriptions ⟨message.env.address.name⟩
    .publish p message.env :: .acquire p :: senders.map (.send p) ++ [.release p]
  | .recv i             => [.recv i]
  | .drop i             => [.drop i]

def atomic (ι : Type) (decode : Bytes → Option Envelope) :
    Machine (MemoryHub ℕ × ℕ) (Broadcast.Action ι decode) where
  init   := ({}, 0)
  next s a := ((machine ℕ).exec s.fst (s.fst.steps s.snd a)).map (·, s.snd + 1)

end MemoryHub
end MomRpc
