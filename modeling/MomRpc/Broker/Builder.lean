import MomRpc.Broker.Client

namespace MomRpc

inductive TransportMode
  | client
  | server
  | fullDuplex
  deriving DecidableEq, Repr

structure TransportConfig where
  uri           : String
  nodeId        : String
  mode          : TransportMode
  requestQueue  : Option String
  responseQueue : Option String
  transportType : Option String
  keepAliveSecs : Option UInt16

structure TransportBase where
  transportId   : String
  mode          : TransportMode
  requestQueue  : Option String
  responseQueue : Option String

def TransportBase.from (config : TransportConfig) : TransportBase where
  transportId   := config.nodeId
  mode          := config.mode
  requestQueue  := config.requestQueue
  responseQueue := config.responseQueue

inductive TransportKind
  | memory
  | rumqttc
  | lapin
  | dustDds
  | redis
  deriving DecidableEq, Repr

structure TransportPtr where
  kind : TransportKind
  base : TransportBase

-- How the factories get on with their client libraries. A factory whose feature is not enabled
-- fails.
def Factories :=
  TransportKind → TransportConfig → Except RpcError Unit

-- The factory of the memory transport is infallible.
def Factories.create (factories : Factories) (kind : TransportKind) (config : TransportConfig) :
    Except RpcError TransportPtr :=
  match kind with
  | .memory => .ok { kind, base := .from config }
  | _       => (factories kind config).map fun _ => { kind, base := .from config }

structure TransportBuilder where
  uri              : Option String := none
  nodeId           : Option String := none
  requestQueue     : Option String := none
  responseQueue    : Option String := none
  transportType    : Option String := none
  keepAliveSecs    : Option UInt16 := none
  calledClientMode : Bool          := false
  calledServerMode : Bool          := false
  calledFullDuplex : Bool          := false

namespace TransportBuilder

inductive Setter
  | uri (uri : String)
  | nodeId (id : String)
  | requestQueue (queue : String)
  | responseQueue (queue : String)
  | clientMode
  | serverMode
  | fullDuplex
  | transportType (flag : String)
  | keepAliveSecs (secs : UInt16)

def set (self : TransportBuilder) : Setter → TransportBuilder
  | .uri uri             => { self with uri }
  | .nodeId id           => { self with nodeId := id }
  | .requestQueue queue  => { self with requestQueue := queue }
  | .responseQueue queue => { self with responseQueue := queue }
  | .clientMode          => { self with calledClientMode := true }
  | .serverMode          => { self with calledServerMode := true }
  | .fullDuplex          => { self with calledFullDuplex := true }
  | .transportType flag  => { self with transportType := flag }
  | .keepAliveSecs secs  => { self with keepAliveSecs := secs }

-- The setters in the order in which they are called on a new builder.
def new (setters : List Setter) : TransportBuilder :=
  setters.foldl set {}

def sugarCount (self : TransportBuilder) : ℕ :=
  [self.calledClientMode, self.calledServerMode, self.calledFullDuplex].count true

-- The queues with the names that a sugar mode generates.
def queues (self : TransportBuilder) (nodeId : String) : Option String × Option String :=
  if self.calledClientMode then
    (self.requestQueue, responsesName nodeId)
  else if self.calledServerMode then
    (requestsName nodeId, self.responseQueue)
  else if self.calledFullDuplex then
    (requestsName nodeId, responsesName nodeId)
  else
    (self.requestQueue, self.responseQueue)

-- The validation with which `build` begins.
def config (self : TransportBuilder) : Except RpcError TransportConfig :=
  match self.uri, self.nodeId with
  | none, _              => .error (.missingConfig "uri")
  | some _, none         => .error (.missingConfig "node_id")
  | some uri, some nodeId =>
    if self.sugarCount > 1 then
      .error <| .configConflict
        "Cannot call multiple mode sugar methods (client_mode, server_mode, full_duplex)"
    else if self.sugarCount > 0 ∧ (self.requestQueue.isSome ∨ self.responseQueue.isSome) then
      .error <| .configConflict
        "Cannot use both mode sugar methods and explicit queue configuration"
    else
      let config (mode : TransportMode) (requestQueue responseQueue : Option String) :
          TransportConfig :=
        { uri, nodeId, mode, requestQueue, responseQueue, transportType := self.transportType
          keepAliveSecs := self.keepAliveSecs }
      match self.queues nodeId with
      | (none, none)         =>
        .error <| .missingConfig "at least one queue (request or response) or a mode method"
      | (some req, some res) => .ok <| config .fullDuplex (some req) (some res)
      | (some req, none)     => .ok <| config .server (some req) none
      | (none, some res)     => .ok <| config .client none (some res)

def build (factories : Factories) (self : TransportBuilder) : Except RpcError TransportPtr := do
  let config ← self.config
  match self.transportType with
  | some "rumqttc"  => factories.create .rumqttc config
  | some "lapin"    => factories.create .lapin config
  | some "dust-dds" => factories.create .dustDds config
  | some "redis"    => factories.create .redis config
  | some "memory"   => factories.create .memory config
  | some other      => .error <| .transport <|
    s!"unrecognized transport_type: {other}, valid values: memory, rumqttc, lapin, dust-dds, redis"
  | none            =>
    factories.create .dustDds config <|> factories.create .rumqttc config <|>
      factories.create .lapin config <|> factories.create .redis config <|>
      factories.create .memory config

end TransportBuilder

structure RpcBrokerBuilder where
  transport           : TransportPtr
  nodeId              : Option String   := none
  retryMaxAttempts    : Option UInt32   := none
  retryMultiplier     : Option ℚ        := none
  retryInitialDelay   : Option Duration := none
  retryMaxDelay       : Option Duration := none
  requestTotalTimeout : Option Duration := none

namespace RpcBrokerBuilder

inductive Setter
  | nodeId (id : String)
  | retryMaxAttempts (attempts : UInt32)
  | retryMultiplier (multiplier : ℚ)
  | retryInitialDelay (delay : Duration)
  | retryMaxDelay (delay : Duration)
  | requestTotalTimeout (timeout : Duration)

def set (self : RpcBrokerBuilder) : Setter → RpcBrokerBuilder
  | .nodeId id                   => { self with nodeId := id }
  | .retryMaxAttempts attempts   => { self with retryMaxAttempts := attempts }
  | .retryMultiplier multiplier  => { self with retryMultiplier := multiplier }
  | .retryInitialDelay delay     => { self with retryInitialDelay := delay }
  | .retryMaxDelay delay         => { self with retryMaxDelay := delay }
  | .requestTotalTimeout timeout => { self with requestTotalTimeout := timeout }

def new (transport : TransportPtr) (setters : List Setter) : RpcBrokerBuilder :=
  setters.foldl set { transport }

def mode : TransportMode → BrokerMode
  | .client     => .client
  | .server     => .server
  | .fullDuplex => .fullDuplex

-- There is a retry config only if at least one of its parameters has been set.
def retryConfig (self : RpcBrokerBuilder) : Option RetryConfig :=
  if self.retryMaxAttempts.isSome ∨ self.retryMultiplier.isSome ∨ self.retryInitialDelay.isSome ∨
      self.retryMaxDelay.isSome then
    some {
      maxAttempts  := self.retryMaxAttempts.getD 3
      multiplier   := self.retryMultiplier.getD 2
      initialDelay := self.retryInitialDelay.getD (.fromMillis 100)
      maxDelay     := self.retryMaxDelay.getD (.fromSecs 5)
    }
  else
    none

def build (self : RpcBrokerBuilder) : Inner where
  nodeId              := self.nodeId.getD self.transport.base.transportId
  mode                := mode self.transport.base.mode
  retryConfig         := self.retryConfig
  requestTotalTimeout := self.requestTotalTimeout.getD (.fromSecs 30)

end RpcBrokerBuilder
end MomRpc
