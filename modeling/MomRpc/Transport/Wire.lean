import MomRpc.Lib.Json
import MomRpc.Transport.Amqp
import MomRpc.Transport.Dds
import MomRpc.Transport.Mqtt
import MomRpc.Transport.Redis

namespace MomRpc

namespace Envelope

-- `derive(Serialize)`, with `None` as null, an `Address` as its string and the payload as an array.
def toJson (env : Envelope) : Json :=
  let string (s : Option String) := s.elim Json.null .str
  .obj [
    ("address", .str env.address.name),
    ("method", string env.method),
    ("payload", .arr <| env.payload.map fun b => .num b.toNat),
    ("correlation_id", string env.correlationId),
    ("reply_to", string <| env.replyTo.map Address.name),
    ("content_type", string env.contentType)
  ]

def string : Json → Option String
  | .str s => some s
  | _      => none

def optional : Json → Option (Option String)
  | .null => some none
  | v     => (string v).map some

def byte : Json → Option UInt8
  | .num n => if n < 256 then some n.toUInt8 else none
  | _      => none

def bytes : Json → Option Bytes
  | .arr vs => vs.mapM byte
  | .str s  => some <| utf8 s
  | _       => none

-- A field must not be there twice.
def field {α : Type} (members : List (String × Json)) (name : String) (decode : Json → Option α)
    (missing : Option α) : Option α :=
  match members.filter (·.fst = name) with
  | []  => missing
  | [m] => decode m.snd
  | _   => none

-- `derive(Deserialize)`, members that are no fields are ignored.
def ofMembers (members : List (String × Json)) : Option Envelope := do
  let address ← field members "address" string none
  let method ← field members "method" optional (some none)
  let payload ← field members "payload" bytes none
  let correlationId ← field members "correlation_id" optional (some none)
  let replyTo ← field members "reply_to" optional (some none)
  let contentType ← field members "content_type" optional (some none)
  some {
    address       := ⟨address⟩
    method        := method
    payload       := payload
    correlationId := correlationId
    replyTo       := replyTo.map Address.mk
    contentType   := contentType
  }

end Envelope

-- What the transports rely on: the documented behaviour of `serde_json`, of the implementations
-- that `serde` derives, and of the one for `Bytes`. It writes a compact text and reads every one.
namespace SerdeJson

def Writes (toString : Envelope → Except String String) : Prop :=
  ∀ env, toString env = .ok (String.ofList env.toJson.render)

def WritesBytes (toVec : Envelope → Except String Bytes) : Prop :=
  ∀ env, toVec env = .ok (utf8 <| String.ofList env.toJson.render)

def Reads (fromStr : String → Option Envelope) : Prop :=
  ∀ text members, Json.Represents text (.obj members) →
    fromStr (String.ofList text) = Envelope.ofMembers members

def ReadsBytes (fromSlice : Bytes → Option Envelope) : Prop :=
  ∀ text members, Json.Represents text (.obj members) →
    fromSlice (utf8 <| String.ofList text) = Envelope.ofMembers members

end SerdeJson

-- `Msg::get_payload` for a `String`.
def GetsText (getPayload : Bytes → Option String) : Prop :=
  ∀ s, getPayload (utf8 s) = some s

def Envelope.tryFrom (fromSlice : Bytes → Except String Envelope) (ddsEnv : DdsEnvelope) :
    Except RpcError Envelope :=
  fromSlice ddsEnv.data |>.mapError fun e =>
    .transport s!"DDS envelope deserialization failed: {e}"

end MomRpc
