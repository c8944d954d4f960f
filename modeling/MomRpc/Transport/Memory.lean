import Mathlib.Logic.Function.Basic
import MomRpc.Domain.Transport
import MomRpc.Lib.Machine

namespace MomRpc

-- How far a call of `MemoryHub::publish` has come.
inductive Publish
  | idle
  | locking (env : Envelope)                     -- awaits the read lock
  | sending (env : Envelope) (senders : List ℕ)  -- holds the read lock, has still to send to these
  | done (env : Envelope)
  | abandoned (env : Envelope)                   -- the caller has dropped the future

namespace Publish

def env? : Publish → Option Envelope
  | idle                                                     => none
  | locking env | sending env _ | done env | abandoned env => env

end Publish

-- `handles` has one entry for each completed `subscribe()`, and a sender is the index of the handle
-- whose inbox it sends to. `readers` are the publishers that hold the lock of `subscriptions`; the
-- writers (`subscribe` and `close`) never await anything while they hold it.
structure MemoryHub (ι : Type) where
  subscriptions : Subscription → List ℕ   := fun _ => []
  readers       : List ι                  := []
  publishes     : ι → Publish             := fun _ => .idle
  handles       : List SubscriptionHandle := []

namespace MemoryHub

variable {ι : Type} [DecidableEq ι]

def set (hub : MemoryHub ι) (p : ι) (progress : Publish) : MemoryHub ι :=
  { hub with publishes := Function.update hub.publishes p progress }

def subscribe (hub : MemoryHub ι) (sub : Subscription) : Option (MemoryHub ι) :=
  if hub.readers = [] then
    let senders := hub.subscriptions sub ++ [hub.handles.length]
    some { hub with
      subscriptions := Function.update hub.subscriptions sub senders
      handles       := hub.handles ++ [{ subscription := sub }]
    }
  else
    none

def close (hub : MemoryHub ι) : Option (MemoryHub ι) :=
  if hub.readers = [] then
    some { hub with subscriptions := fun _ => [] }
  else
    none

-- `publish` is split where it awaits: the call itself, the read lock, one `sender.send(..)` for
-- each subscriber, and the return.
def publish (hub : MemoryHub ι) (p : ι) (env : Envelope) : Option (MemoryHub ι) :=
  match hub.publishes p with
  | .idle => some <| hub.set p (.locking env)
  | _     => none

-- A subscription matches if its name equals that of the address, so at most one key of the map
-- does.
def acquire (hub : MemoryHub ι) (p : ι) : Option (MemoryHub ι) :=
  match hub.publishes p with
  | .locking env =>
    let senders := hub.subscriptions ⟨env.address.name⟩
    some { hub.set p (.sending env senders) with readers := p :: hub.readers }
  | _ => none

-- A send to a dropped handle fails and is ignored, a send to a full inbox waits.
def deliver (hub : MemoryHub ι) (i : ℕ) (env : Envelope) : Option (MemoryHub ι) :=
  match hub.handles[i]? with
  | none => none
  | some h =>
    if h.inbox.held then
      (h.inbox.trySend env).map fun inbox =>
        { hub with handles := hub.handles.set i { h with inbox } }
    else
      some hub

def send (hub : MemoryHub ι) (p : ι) (i : ℕ) : Option (MemoryHub ι) :=
  match hub.publishes p with
  | .sending env (j :: senders) =>
    if i = j then
      (hub.deliver i env).map (·.set p (.sending env senders))
    else
      none
  | _ => none

def release (hub : MemoryHub ι) (p : ι) : Option (MemoryHub ι) :=
  match hub.publishes p with
  | .sending env [] => some { hub.set p (.done env) with readers := hub.readers.erase p }
  | _               => none

def abandon (hub : MemoryHub ι) (p : ι) : Option (MemoryHub ι) :=
  match hub.publishes p with
  | .locking env   => some <| hub.set p (.abandoned env)
  | .sending env _ => some { hub.set p (.abandoned env) with readers := hub.readers.erase p }
  | _              => none

def recv (hub : MemoryHub ι) (i : ℕ) : Option (Envelope × MemoryHub ι) := do
  let h ← hub.handles[i]?
  let (env, inbox) ← h.inbox.recv
  some (env, { hub with handles := hub.handles.set i { h with inbox } })

def drop (hub : MemoryHub ι) (i : ℕ) : Option (MemoryHub ι) :=
  hub.handles[i]?.map fun h =>
    { hub with handles := hub.handles.set i { h with inbox := h.inbox.drop } }

inductive Action (ι : Type)
  | subscribe (sub : Subscription)
  | publish (p : ι) (env : Envelope)
  | acquire (p : ι)
  | send (p : ι) (i : ℕ)
  | release (p : ι)
  | abandon (p : ι)
  | recv (i : ℕ)
  | drop (i : ℕ)
  | close
  deriving DecidableEq

def next (hub : MemoryHub ι) : Action ι → Option (MemoryHub ι)
  | .subscribe sub => hub.subscribe sub
  | .publish p env => hub.publish p env
  | .acquire p     => hub.acquire p
  | .send p i      => hub.send p i
  | .release p     => hub.release p
  | .abandon p     => hub.abandon p
  | .recv i        => (hub.recv i).map Prod.snd
  | .drop i        => hub.drop i
  | .close         => hub.close

def machine (ι : Type) [DecidableEq ι] : Machine (MemoryHub ι) (Action ι) where
  init := {}
  next := next

end MemoryHub
end MomRpc
