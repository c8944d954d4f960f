import MomRpc.Broker.Client
import MomRpc.Broker.Server
import MomRpc.Transport.Memory

namespace MomRpc

namespace Client

variable {ρ : Type}

-- The attempt of the `k`-th call, if its `publish` has not returned.
def publishing? (c : Client ρ) (k : ℕ) : Option ℕ := do
  let call ← c.calls[k]?
  match call.phase with
  | .attempting i =>
    let a ← c.attempts[i]?
    match a.phase with
    | .publishing => some i
    | _           => none
  | _ => none

end Client

namespace Network

-- The calls of `publish` that brokers make: one for each attempt and one for each answer of a
-- handler task.
inductive Publisher (β : Type)
  | request (b : β) (i : ℕ)
  | response (b : β) (t : ℕ)
  deriving DecidableEq

-- The receive loops that brokers have: `start_client_task` and `start_server_task`.
inductive Receiver (β : Type)
  | responses (b : β)
  | requests (b : β)
  deriving DecidableEq

def Receiver.subscription {β : Type} (inner : β → Inner) : Receiver β → Subscription
  | responses b => ⟨responsesName (inner b).nodeId⟩
  | requests b  => ⟨requestsName (inner b).nodeId⟩

-- `hub`, `client` and `server` are actions of one component alone: at the hub those of publishes
-- that are under way, and of subscribers which are not brokers.
inductive Action (β ρ ω : Type)
  | hub (act : MemoryHub.Action (Publisher β))
  | client (b : β) (act : Client.Action ρ)
  | server (b : β) (act : Server.Action ω)
  | subscribed (rx : Receiver β)
  | receive (rx : Receiver β) (j : ℕ) (env : Envelope)
  | inboxClosed (rx : Receiver β) (j : ℕ)
  | attempt (b : β) (k : ℕ) (correlationId : String) (i : ℕ) (env : Envelope)
  | requested (b : β) (i : ℕ) (hash : UInt64)
  | abandon (b : β) (k i : ℕ)
  | handled (b : β) (t : ℕ) (world : ω) (answer : Option Envelope)
  | responded (b : β) (t : ℕ)

namespace Action

variable {β ρ ω : Type}

def hub? (inner : β → Inner) : Action β ρ ω → Option (MemoryHub.Action (Publisher β))
  | hub act                     => act
  | subscribed rx               => some <| .subscribe (rx.subscription inner)
  | receive _ j _               => some <| .recv j
  | inboxClosed _ j             => some <| .drop j
  | attempt b _ _ i env         => some <| .publish (.request b i) env
  | requested b i _             => some <| .release (.request b i)
  | abandon b _ i               => some <| .abandon (.request b i)
  | handled b t _ (some answer) => some <| .publish (.response b t) answer
  | responded b t               => some <| .release (.response b t)
  | client _ _ | server _ _ | handled _ _ _ none => none

def client? : Action β ρ ω → Option (β × Client.Action ρ)
  | client b act                   => some (b, act)
  | subscribed (.responses b)      => some (b, .subscribed)
  | receive (.responses b) _ env   => some (b, .take env)
  | inboxClosed (.responses b) _   => some (b, .inboxClosed)
  | attempt b k correlationId _ _  => some (b, .attempt k correlationId)
  | requested b i hash             => some (b, .published i (.ok ()) hash)
  | abandon b k _                  => some (b, .drop k)
  | _                              => none

def server? : Action β ρ ω → Option (β × Server.Action ω)
  | server b act               => some (b, act)
  | subscribed (.requests b)    => some (b, .subscribed)
  | receive (.requests b) _ env => some (b, .take env)
  | inboxClosed (.requests b) _ => some (b, .inboxClosed)
  | handled b t world answer    => some (b, .handled t world answer)
  | responded b t               => some (b, .published t)
  | _                           => none

-- The receive loop, if any, that gets the handle which the action creates.
def owner? : Action β ρ ω → Option (Option (Receiver β))
  | hub (.subscribe _) => some none
  | subscribed rx      => some (some rx)
  | _                  => none

def correlationId? : Action β ρ ω → Option String
  | attempt _ _ correlationId _ _ => some correlationId
  | _                             => none

end Action
end Network

-- Brokers that are attached to one `MemoryHub`. `owners` tells for each handle which receive loop
-- has it, and `generated` are the correlation ids in use.
structure Network (β ρ ω : Type) where
  hub       : MemoryHub (Network.Publisher β)
  clients   : β → Client ρ
  servers   : β → Server ω
  owners    : List (Option (Network.Receiver β)) := []
  generated : List String                        := []

namespace Network

variable {β ρ ω : Type} [DecidableEq β]

-- What a component's action requires of the others, and which ones it cannot take alone.
def Allows (inner : β → Inner) (net : Network β ρ ω) : Action β ρ ω → Prop
  | .hub (.subscribe _) | .hub (.acquire _) | .hub (.send _ _) | .hub .close => True
  | .hub (.recv j) | .hub (.drop j) => net.owners[j]? = some none
  | .client _ (.lookup _) | .client _ (.deliver _ _) | .client _ (.request _ _ _ _)
  | .client _ (.respond _) | .client _ (.timeout _ _) | .client _ (.closed _)
  | .client _ (.wake _) => True
  | .client b (.drop k) => (net.clients b).publishing? k = none
  | .server _ (.register _ _) | .server _ (.dispatch _) => True
  | .hub _ | .client _ _ | .server _ _ => False
  | .receive rx j env =>
    net.owners[j]? = some (some rx) ∧ (net.hub.recv j).map Prod.fst = some env
  | .inboxClosed rx j =>
    net.owners[j]? = some (some rx) ∧ j ∉ net.hub.subscriptions (rx.subscription inner) ∧
      net.hub.handles[j]?.map (·.inbox.queue) = some []
  | .attempt b k correlationId i env =>
    correlationId ∉ net.generated ∧ (net.clients b).attempts.length = i ∧
      ((net.clients b).calls[k]?.map fun call =>
        (inner b).request call.targetNodeId call.method call.reqBytes correlationId) = some env
  | .abandon b k i => (net.clients b).publishing? k = some i
  | .subscribed _ | .requested _ _ _ | .handled _ _ _ _ | .responded _ _ => True

instance {inner : β → Inner} {net : Network β ρ ω} {act : Action β ρ ω} :
    Decidable (net.Allows inner act) := by
  unfold Allows
  split <;> infer_instance

def hubs (β : Type) [DecidableEq β] :=
  MemoryHub.machine (Publisher β)

def clientFamily (ρ : Type) (inner : β → Inner) :=
  Machine.family fun b => Client.machine ρ (inner b)

def serverFamily (ω : Type) (inner : β → Inner) :=
  Machine.family fun b => Server.machine ω (inner b)

def next (inner : β → Inner) (net : Network β ρ ω) (act : Action β ρ ω) :
    Option (Network β ρ ω) :=
  if net.Allows inner act then do
    let hub     ← (hubs β).next? net.hub (act.hub? inner)
    let clients ← (clientFamily ρ inner).next? net.clients act.client?
    let servers ← (serverFamily ω inner).next? net.servers act.server?
    some {
      hub, clients, servers
      owners    := net.owners ++ act.owner?.toList
      generated := net.generated ++ act.correlationId?.toList
    }
  else
    none

def machine (ρ ω : Type) (inner : β → Inner) : Machine (Network β ρ ω) (Action β ρ ω) where
  init := {
    hub     := (hubs β).init
    clients := (clientFamily ρ inner).init
    servers := (serverFamily ω inner).init
  }
  next := next inner

end Network
end MomRpc
