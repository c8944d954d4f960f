import MomRpc.Broker.Builder
import MomRpc.Lib.Text

namespace MomRpc

open Text

-- What the client libraries answer when a transport is created, errors as they are displayed.
structure Clients where
  createParticipant          : UInt16 → Except String Unit
  connect                    : String → Except String Unit
  createChannel              : Except String Unit
  openClient                 : String → Except String Unit
  multiplexedAsyncConnection : Except String Unit
  asyncPubsub                : Except String Unit

structure MqttOptions where
  clientId  : String
  host      : String
  port      : UInt16
  keepAlive : Option UInt16
  deriving DecidableEq

-- `str::parse::<u16>()`.
def parseU16 (text : List Char) : Except IntErrorKind UInt16 :=
  (parseUnsigned UInt16.size text).map .ofNat

namespace Factories

def parseDomainId : Option String → Except RpcError UInt16
  | none     => .ok 0
  | some uri =>
    match "dds:".toList.isPrefixOf? uri.toList with
    | none        =>
      .error <| .transport s!"Invalid DDS URI format '{uri}', expected 'dds:<domain_id>'"
    | some domain =>
      let domainStr := String.ofList domain
      (parseU16 domain).mapError fun _ =>
        .transport s!"Invalid DDS domain ID '{domainStr}', must be a number"

def createDustDds (clients : Clients) (config : TransportConfig) : Except RpcError Unit := do
  let domainId ← parseDomainId <| if config.uri = "" then none else some config.uri
  (clients.createParticipant domainId).mapError fun e =>
    .transport s!"Failed to create DomainParticipant on domain {domainId}: {e}"

def createMqttClient (config : TransportConfig) : Except RpcError MqttOptions :=
  let transportUri := config.uri
  if transportUri = "" then
    .error <| .transport "MQTT transport requires URI"
  else
    let text := transportUri.toList
    let url  := ("mqtt://".toList.isPrefixOf? text <|> "tcp://".toList.isPrefixOf? text).getD text
    let options (host : List Char) (port : UInt16) : MqttOptions :=
      { clientId := config.nodeId, host := .ofList host, port, keepAlive := config.keepAliveSecs }
    match splitOnce ':' url with
    | none              => .ok <| options url 1883
    | some (host, port) =>
      match parseU16 port with
      | .ok port   => .ok <| options host port
      | .error err =>
        .error <| .transport s!"rumqttc: invalid port in broker URL {transportUri}: {err}"

def createRumqttc (config : TransportConfig) : Except RpcError Unit :=
  (createMqttClient config).map fun _ => ()

def createAmqpConnection (clients : Clients) (config : TransportConfig) :
    Except RpcError Unit := do
  let uri := config.uri
  if uri = "" then
    throw <| .transport "AMQP transport requires URI"
  (clients.connect uri).mapError fun e => .transport s!"amqp: connection failed: {e}"
  clients.createChannel.mapError fun e => .transport s!"amqp: channel creation failed: {e}"

def createRedis (clients : Clients) (config : TransportConfig) : Except RpcError Unit := do
  let uri := config.uri
  if uri = "" then
    throw <| .transport "Redis transport requires URI"
  (clients.openClient uri).mapError fun err =>
    .transport s!"redis: failed to open client for URI {uri}: {err}"
  clients.multiplexedAsyncConnection.mapError fun err =>
    .transport s!"redis: failed to connect publish connection to {uri}: {err}"
  clients.asyncPubsub.mapError fun err =>
    .transport s!"redis: failed to connect pubsub connection to {uri}: {err}"

-- The factories of a build with these features: the ones that are left out are stubs.
def of (features : TransportKind → Bool) (clients : Clients) : Factories :=
  let enabled (kind : TransportKind) (feature : String) (create : Except RpcError Unit) :=
    if features kind then create else .error <| .transport s!"{feature} feature is not enabled"
  fun kind config =>
    match kind with
    | .memory  => .ok ()
    | .rumqttc => enabled kind "transport_rumqttc" <| createRumqttc config
    | .lapin   => enabled kind "transport_lapin" <| createAmqpConnection clients config
    | .dustDds => enabled kind "transport_dust_dds" <| createDustDds clients config
    | .redis   => enabled kind "transport_redis" <| createRedis clients config

end Factories

end MomRpc
