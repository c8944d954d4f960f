import MomRpc.Broker.Client
import MomRpc.Broker.Server

namespace MomRpc

namespace Rpc

inductive Action (β ρ ω : Type)
  | client (b : β) (act : Client.Action ρ)
  | server (b : β) (act : Server.Action ω)

namespace Action

variable {β ρ ω : Type}

def client? : Action β ρ ω → Option (β × Client.Action ρ)
  | client b act => some (b, act)
  | server _ _   => none

def server? : Action β ρ ω → Option (β × Server.Action ω)
  | client _ _   => none
  | server b act => some (b, act)

def correlationId? : Action β ρ ω → Option String
  | client _ (.attempt _ correlationId) => some correlationId
  | _                                   => none

end Action
end Rpc

-- The protocol without its transports. Whatever carries the envelopes may lose them, hold them
-- back, let them pass each other and deliver them again, but it delivers nothing that has not been
-- published, and only to the address which that was published to.
structure Rpc (β ρ ω : Type) where
  clients   : β → Client ρ
  servers   : β → Server ω
  published : List Envelope := []
  generated : List String   := []

namespace Rpc

variable {β ρ ω : Type} [DecidableEq β]

-- What is left of a transport: a receive loop takes something that has been published.
def Allows (inner : β → Inner) (rpc : Rpc β ρ ω) : Action β ρ ω → Prop
  | .client b (.take env) =>
    env ∈ rpc.published ∧ env.address.name = responsesName (inner b).nodeId
  | .server b (.take env) =>
    env ∈ rpc.published ∧ env.address.name = requestsName (inner b).nodeId
  | .client _ (.attempt _ correlationId) => correlationId ∉ rpc.generated
  | _ => True

instance {inner : β → Inner} {rpc : Rpc β ρ ω} {act : Action β ρ ω} :
    Decidable (rpc.Allows inner act) := by
  unfold Allows
  split <;> infer_instance

-- The envelope that is handed to `transport.publish` in the step.
def publish? (inner : β → Inner) (rpc : Rpc β ρ ω) : Action β ρ ω → Option Envelope
  | .client b (.attempt k correlationId) =>
    (rpc.clients b).calls[k]?.map fun call =>
      (inner b).request call.targetNodeId call.method call.reqBytes correlationId
  | .server _ (.handled _ _ answer) => answer
  | _ => none

def clientFamily (ρ : Type) (inner : β → Inner) :=
  Machine.family fun b => Client.machine ρ (inner b)

def serverFamily (ω : Type) (inner : β → Inner) :=
  Machine.family fun b => Server.machine ω (inner b)

def next (inner : β → Inner) (rpc : Rpc β ρ ω) (act : Action β ρ ω) : Option (Rpc β ρ ω) :=
  if rpc.Allows inner act then do
    let clients ← (clientFamily ρ inner).next? rpc.clients act.client?
    let servers ← (serverFamily ω inner).next? rpc.servers act.server?
    some {
      clients, servers
      published := rpc.published ++ (rpc.publish? inner act).toList
      generated := rpc.generated ++ act.correlationId?.toList
    }
  else
    none

def machine (ρ ω : Type) (inner : β → Inner) : Machine (Rpc β ρ ω) (Action β ρ ω) where
  init := {
    clients := (clientFamily ρ inner).init
    servers := (serverFamily ω inner).init
  }
  next := next inner

end Rpc
end MomRpc
