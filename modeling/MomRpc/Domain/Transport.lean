import MomRpc.Lib.Mailbox

namespace MomRpc

abbrev Bytes := List UInt8

def utf8 (s : String) : Bytes :=
  s.toUTF8.data.toList

def ofUtf8 (bytes : Bytes) : Option String :=
  String.fromUTF8? ⟨bytes.toArray⟩

-- What a transport hands over to the library of its broker.
structure Packet where
  topic   : String
  payload : Bytes
  deriving DecidableEq

@[ext]
structure Address where
  name : String
  deriving DecidableEq, Repr

@[ext]
structure Subscription where
  name : String
  deriving DecidableEq, Repr

structure Envelope where
  address       : Address
  method        : Option String
  payload       : Bytes
  correlationId : Option String
  replyTo       : Option Address
  contentType   : Option String
  deriving DecidableEq, Repr

namespace Envelope

def request
    (address : Address) (method : String) (payload : Bytes) (correlationId : String)
    (replyTo : Address) (contentType : String) : Envelope where
  address       := address
  method        := method
  payload       := payload
  correlationId := correlationId
  replyTo       := replyTo
  contentType   := contentType

def response
    (address : Address) (payload : Bytes) (correlationId : String) (contentType : String) :
    Envelope where
  address       := address
  method        := none
  payload       := payload
  correlationId := correlationId
  replyTo       := none
  contentType   := contentType

end Envelope

-- The size of every inbox: `mpsc::channel(16)`.
abbrev inboxCapacity := 16

structure SubscriptionHandle where
  subscription : Subscription
  inbox        : Mailbox Envelope inboxCapacity := .empty

inductive BrokerMode
  | client
  | server
  | fullDuplex
  deriving DecidableEq, Repr

namespace BrokerMode

-- The modes in which `RpcBroker::new` starts the response receiver and `request_to` is allowed.
def requests : BrokerMode → Bool
  | client | fullDuplex => true
  | server              => false

-- The modes in which `RpcBroker::new` starts the request receiver and handlers may be registered.
def serves : BrokerMode → Bool
  | server | fullDuplex => true
  | client              => false

end BrokerMode

-- The two addresses derived from a node's id.
def requestsName (nodeId : String) : String :=
  "requests/" ++ nodeId

def responsesName (nodeId : String) : String :=
  "responses/" ++ nodeId

theorem requestsName_injective : Function.Injective requestsName := by
  intro a b h
  simpa [requestsName] using h

theorem requestsName_ne_responsesName {a b : String} : requestsName a ≠ responsesName b := by
  intro h
  have h := congrArg String.toList h
  simp [requestsName, responsesName] at h

end MomRpc
