import MomRpc.Broker.Network
import MomRpc.Broker.Rpc
import MomRpc.Transport.Carrier

namespace MomRpc

namespace RumqttcTransport.MethodCall

def result? (c : MethodCall) : Option (Except RpcError Unit) :=
  match c.phase with
  | .returned result => some result
  | _                => none

end RumqttcTransport.MethodCall

open RumqttcTransport (MethodCall)

namespace Network

variable {β : Type}

def Publisher.home : Publisher β → β
  | request b _ | response b _ => b

def Receiver.home : Receiver β → β
  | responses b | requests b => b

end Network

namespace Cluster

open Network (Publisher Receiver)

-- Whoever calls a method of a transport.
inductive Caller (β : Type)
  | publisher (p : Publisher β)
  | receiver (rx : Receiver β)
  deriving DecidableEq

def Caller.home {β : Type} : Caller β → β
  | publisher p => p.home
  | receiver rx => rx.home

-- `transport`, `client` and `server` are actions of one component alone, `close` is a call that no
-- broker awaits. An attempt that is abandoned drops its call of `publish` if that has not returned.
inductive Action {β : Type} (C : β → Carrier) (ρ ω : Type)
  | transport (b : β) (act : (C b).Action)
  | client (b : β) (act : Client.Action ρ)
  | server (b : β) (act : Server.Action ω)
  | close (b : β)
  | subscribe (rx : Receiver β)
  | subscribed (rx : Receiver β) (result : Except RpcError Unit)
  | receive (rx : Receiver β) (k : ℕ) (env : Envelope)
  | inboxClosed (rx : Receiver β) (k : ℕ)
  | attempt (b : β) (k : ℕ) (correlationId : String) (i : ℕ) (env : Envelope)
  | requested (b : β) (i : ℕ) (result : Except RpcError Unit) (hash : UInt64)
  | abandon (b : β) (k i : ℕ) (cancelled : Option ℕ)
  | handled (b : β) (t : ℕ) (world : ω) (answer : Option Envelope)
  | responded (b : β) (t : ℕ)

namespace Action

variable {β ρ ω : Type} {C : β → Carrier}

def transport? (inner : β → Inner) : Action C ρ ω → Option (Σ b, (C b).Action)
  | transport b act                        => some ⟨b, act⟩
  | close b                                => some ⟨b, (C b).use (.call .close)⟩
  | subscribe rx                           =>
    some ⟨rx.home, (C rx.home).use (.call (.subscribe (rx.subscription inner).name))⟩
  | receive rx k _                         => some ⟨rx.home, (C rx.home).use (.recv k)⟩
  | inboxClosed rx k                       => some ⟨rx.home, (C rx.home).use (.dropInbox k)⟩
  | attempt b _ _ _ env                    => some ⟨b, (C b).use (.call (.publish env))⟩
  | abandon b _ _ (some j)                 => some ⟨b, (C b).use (.cancel j)⟩
  | handled b _ _ (some answer)            => some ⟨b, (C b).use (.call (.publish answer))⟩
  | client _ _ | server _ _ | subscribed _ _ | requested _ _ _ _ | abandon _ _ _ none
  | handled _ _ _ none | responded _ _     => none

def client? : Action C ρ ω → Option (β × Client.Action ρ)
  | client b act                           => some (b, act)
  | subscribed (.responses b) (.ok _)      => some (b, .subscribed)
  | subscribed (.responses b) (.error _)   => some (b, .subscribeFailed)
  | receive (.responses b) _ env           => some (b, .take env)
  | inboxClosed (.responses b) _           => some (b, .inboxClosed)
  | attempt b k correlationId _ _          => some (b, .attempt k correlationId)
  | requested b i result hash              => some (b, .published i result hash)
  | abandon b k _ _                        => some (b, .drop k)
  | _                                      => none

def server? : Action C ρ ω → Option (β × Server.Action ω)
  | server b act                           => some (b, act)
  | subscribed (.requests b) (.ok _)       => some (b, .subscribed)
  | subscribed (.requests b) (.error _)    => some (b, .subscribeFailed)
  | receive (.requests b) _ env            => some (b, .take env)
  | inboxClosed (.requests b) _            => some (b, .inboxClosed)
  | handled b t world answer               => some (b, .handled t world answer)
  | responded b t                          => some (b, .published t)
  | _                                      => none

-- Who makes a call in the action.
def caller? : Action C ρ ω → Option (Caller β)
  | subscribe rx           => some (.receiver rx)
  | attempt b _ _ i _      => some (.publisher (.request b i))
  | handled b t _ (some _) => some (.publisher (.response b t))
  | _                      => none

def correlationId? : Action C ρ ω → Option String
  | attempt _ _ correlationId _ _ => some correlationId
  | _                             => none

end Action
end Cluster

-- Brokers each of which has a transport of its own. `callOf` tells which call has been made by
-- whom, `generated` are the correlation ids in use, and `pool` is what the transports have sent.
-- The network may lose messages, delay them and deliver them more than once, but it makes up none.
structure Cluster {β : Type} (C : β → Carrier) (ρ ω : Type) where
  transports : ∀ b, (C b).State
  clients    : β → Client ρ
  servers    : β → Server ω
  callOf     : Cluster.Caller β → Option ℕ := fun _ => none
  pool       : List Packet                 := []
  generated  : List String                 := []

namespace Cluster

open Network (Publisher Receiver)

variable {β ρ ω : Type} [DecidableEq β] {C : β → Carrier}

def call? (net : Cluster C ρ ω) (u : Caller β) : Option (ℕ × MethodCall) := do
  let j ← net.callOf u
  let c ← ((C u.home).calls (net.transports u.home))[j]?
  return (j, c)

def result? (net : Cluster C ρ ω) (u : Caller β) : Option (Except RpcError Unit) :=
  (net.call? u).bind (·.snd.result?)

def Starting (net : Cluster C ρ ω) : Receiver β → Prop
  | .responses b => ((net.clients b).task matches .starting)
  | .requests b  => ((net.servers b).task matches .starting)

-- The receive loop has the handle that its call of `subscribe` has returned.
def Owns (net : Cluster C ρ ω) (rx : Receiver β) (k : ℕ) : Prop :=
  net.callOf (.receiver rx) ≠ none ∧
    ((C rx.home).owners (net.transports rx.home))[k]? = net.callOf (.receiver rx)

def inbox? (net : Cluster C ρ ω) (rx : Receiver β) (k : ℕ) :
    Option (Mailbox Envelope inboxCapacity) :=
  ((C rx.home).handles (net.transports rx.home))[k]?.map SubscriptionHandle.inbox

-- What a component's action requires of the others, and which ones it cannot take alone.
def Allows (inner : β → Inner) (net : Cluster C ρ ω) : Action C ρ ω → Prop
  | .transport b act =>
    ((C b).use? act).isNone ∧ ∀ p ∈ (C b).arrives (net.transports b) act, p ∈ net.pool
  | .client _ (.lookup _) | .client _ (.deliver _ _) | .client _ (.request _ _ _ _)
  | .client _ (.respond _) | .client _ (.timeout _ _) | .client _ (.closed _)
  | .client _ (.wake _) => True
  | .client b (.drop k) => (net.clients b).publishing? k = none
  | .server _ (.register _ _) | .server _ (.dispatch _) => True
  | .client _ _ | .server _ _ => False
  | .close _ => True
  | .subscribe rx => net.callOf (.receiver rx) = none ∧ net.Starting rx
  | .subscribed rx result => net.result? (.receiver rx) = some result
  | .receive rx k env =>
    net.Owns rx k ∧ ((net.inbox? rx k).bind Mailbox.recv).map Prod.fst = some env
  | .inboxClosed rx k =>
    net.Owns rx k ∧ (C rx.home).retains (net.transports rx.home) k = false ∧
      (net.inbox? rx k).map Mailbox.queue = some []
  | .attempt b k correlationId i env =>
    correlationId ∉ net.generated ∧ (net.clients b).attempts.length = i ∧
      ((net.clients b).calls[k]?.map fun call =>
        (inner b).request call.targetNodeId call.method call.reqBytes correlationId) = some env
  | .requested b i result _ => net.result? (.publisher (.request b i)) = some result
  | .abandon b k i cancelled =>
    (net.clients b).publishing? k = some i ∧
      (((net.call? (.publisher (.request b i))).filter (·.snd.active)).map Prod.fst) = cancelled
  | .handled _ _ _ _ => True
  | .responded b t => (net.result? (.publisher (.response b t))).isSome

instance {net : Cluster C ρ ω} {rx : Receiver β} : Decidable (net.Starting rx) := by
  unfold Starting
  split <;> infer_instance

instance {net : Cluster C ρ ω} {rx : Receiver β} {k : ℕ} : Decidable (net.Owns rx k) := by
  unfold Owns
  infer_instance

instance {inner : β → Inner} {net : Cluster C ρ ω} {act : Action C ρ ω} :
    Decidable (net.Allows inner act) := by
  unfold Allows
  split <;> infer_instance

def transportProduct (C : β → Carrier) :=
  Machine.product fun b => (C b).machine

def calls (net : Cluster C ρ ω) (u : Caller β) : Caller β → Option ℕ :=
  Function.update net.callOf u <| some ((C u.home).calls (net.transports u.home)).length

def departs (inner : β → Inner) (net : Cluster C ρ ω) (act : Action C ρ ω) : Option Packet :=
  (act.transport? inner).bind fun ⟨b, a⟩ => (C b).departs (net.transports b) a

def next (inner : β → Inner) (net : Cluster C ρ ω) (act : Action C ρ ω) :
    Option (Cluster C ρ ω) :=
  if net.Allows inner act then do
    let transports ← (transportProduct C).next? net.transports (act.transport? inner)
    let clients    ← (Rpc.clientFamily ρ inner).next? net.clients act.client?
    let servers    ← (Rpc.serverFamily ω inner).next? net.servers act.server?
    some {
      transports, clients, servers
      callOf    := act.caller?.elim net.callOf net.calls
      pool      := net.pool ++ (net.departs inner act).toList
      generated := net.generated ++ act.correlationId?.toList
    }
  else
    none

def machine (C : β → Carrier) (ρ ω : Type) (inner : β → Inner) :
    Machine (Cluster C ρ ω) (Action C ρ ω) where
  init := {
    transports := (transportProduct C).init
    clients    := (Rpc.clientFamily ρ inner).init
    servers    := (Rpc.serverFamily ω inner).init
  }
  next := next inner

end Cluster
end MomRpc
