import MomRpc.Lib.Json.Parser
import MomRpc.Transport.Carrier
import MomRpc.Transport.Theorems.Readers

namespace MomRpc

open SerdeJson

theorem ofUtf8_utf8 (s : String) : ofUtf8 (utf8 s) = some s :=
  dif_pos s.isValidUTF8

namespace Envelope

variable {env : Envelope} {members : List (String × Json)}

theorem optional_elim (s : Option String) : optional (s.elim Json.null .str) = some s := by
  cases s <;> rfl

theorem byte_num (b : UInt8) : byte (.num b.toNat) = some b := by
  simp [byte, b.toNat_lt]

theorem bytes_arr (payload : Bytes) :
    bytes (.arr <| payload.map fun b => .num b.toNat) = some payload := by
  induction payload
  case nil => rfl
  case cons b payload ih =>
    simp only [bytes] at ih
    simp [bytes, byte_num, ih]

theorem optional_address (address : Option Address) :
    optional (address.elim Json.null fun address => .str address.name) =
      some (address.map Address.name) := by
  cases address <;> rfl

-- What is decoded is what was encoded, whatever strings and bytes there are in the envelope.
theorem ofMembers_toJson (obj : env.toJson = .obj members) : ofMembers members = some env := by
  cases obj
  simp [ofMembers, field, string, optional_elim, bytes_arr, optional_address, Function.comp_def]

theorem toJson_obj (env : Envelope) : ∃ members, env.toJson = .obj members :=
  ⟨_, rfl⟩

-- What every transport makes of an envelope.
@[irreducible]
def wire (env : Envelope) : Bytes :=
  utf8 <| String.ofList env.toJson.render

def packet (env : Envelope) : Packet where
  topic   := env.address.name
  payload := env.wire

end Envelope

section Serde

variable {toString : Envelope → Except String String} {toVec : Envelope → Except String Bytes}
  {fromStr : String → Option Envelope} {fromSlice : Bytes → Option Envelope}

theorem SerdeJson.Reads.written (reads : Reads fromStr) (env : Envelope) :
    fromStr (String.ofList env.toJson.render) = some env := by
  have ⟨members, obj⟩ := env.toJson_obj
  rw [reads _ members <| obj ▸ Json.render_represents env.toJson]
  exact Envelope.ofMembers_toJson obj

theorem SerdeJson.ReadsBytes.written (reads : ReadsBytes fromSlice) (env : Envelope) :
    fromSlice env.wire = some env := by
  have ⟨members, obj⟩ := env.toJson_obj
  rw [Envelope.wire, reads _ members <| obj ▸ Json.render_represents env.toJson]
  exact Envelope.ofMembers_toJson obj

end Serde

theorem Except.eq_ok_of_toOption {ε α : Type} {x : Except ε α} {a : α}
    (h : x.toOption = some a) : x = .ok a := by
  cases x <;> cases h
  rfl

section Packets

variable {env : Envelope}

theorem Rumqttc.sends_eq {rumqttc : Rumqttc} (writes : WritesBytes rumqttc.toVec)
    (valid : rumqttc.publishError env.address.name = none) :
    rumqttc.publish env (rumqttc.published env.address.name) = .ok env.packet := by
  rw [publish, packet, writes, published, valid, ← Envelope.wire]
  rfl

theorem Rumqttc.packet_of_sends {rumqttc : Rumqttc} {p : Packet}
    (writes : WritesBytes rumqttc.toVec) (h : rumqttc.sends env = some p) : p = env.packet := by
  rw [sends, publish, packet, writes, published, ← Envelope.wire] at h
  cases he : rumqttc.publishError env.address.name <;> rw [he] at h <;> cases h
  rfl

theorem Redis.packet_eq {redis : Redis} (writes : Writes redis.toString) :
    redis.packet env = .ok env.packet := by
  rw [packet, writes, Envelope.packet, Envelope.wire]
  rfl

theorem Amqp.packet_eq {amqp : Amqp} (writes : WritesBytes amqp.toVec) :
    amqp.packet env = .ok env.packet := by
  rw [packet, writes, ← Envelope.wire]
  rfl

theorem DdsActor.tryFrom_eq {dds : Dds} (writes : WritesBytes dds.toVec) :
    tryFrom dds env = .ok { topic := env.address.name, data := env.wire } := by
  rw [tryFrom, writes, ← Envelope.wire]
  rfl

end Packets

-- The envelope comes back from the packet, and it was published under its address.
def RoundTrips (p : Packet) (decode : Bytes → Option Envelope) (env : Envelope) : Prop :=
  ∃ env', decode p.payload = some env' ∧ env' = env ∧ p.topic = env'.address.name

section Departures

variable {env : Envelope} {resp : ℕ}

-- What `AsyncClient` is asked to publish.
def MqttTransport.RoundTrips (rumqttc : Rumqttc) (fromSlice : Bytes → Option Envelope)
    (t : MqttTransport) (env : Envelope) (resp : ℕ) : Prop :=
  ∃ p, (carrier rumqttc fromSlice).departs t (.actor .handle) = some p ∧
    t.actor.handlePublish rumqttc env resp =
      t.actor.await [.publish p.topic p.payload] (·.reply resp (.ok .ok)) ∧
    MomRpc.RoundTrips p fromSlice env

-- What the command is issued with.
def RedisActor.RoundTrips (redis : Redis) (m : Actor (kind redis)) (env : Envelope) : Prop :=
  ∀ published, ∃ p, (carrier redis).departs m (.execute published) = some p ∧
    MomRpc.RoundTrips p (decode redis) env

-- What `basic_publish` is called with.
def AmqpActor.RoundTrips (amqp : Amqp) (m : Actor (kind amqp)) (env : Envelope) : Prop :=
  ∀ published, ∃ p, (carrier amqp).departs m (.execute (.publish published)) = some p ∧
    MomRpc.RoundTrips p amqp.fromSlice env

-- What the writer is given once it is there and matched.
def DdsActor.RoundTrips (dds : Dds) (fromSlice : Bytes → Except String Envelope)
    (m : Actor (kind dds)) (env : Envelope) : Prop :=
  ∃ ddsEnv, tryFrom dds env = .ok ddsEnv ∧ Envelope.tryFrom fromSlice ddsEnv = .ok env ∧
    ∀ writer reader write,
      (carrier dds).departs m (.execute (.publish writer reader write)) = some ddsEnv.packet ∧
      MomRpc.RoundTrips ddsEnv.packet dds.fromSlice env ∧
      ((m.state.handlePublish dds env.address.name env writer reader write).2 = .ok () →
        (m.state.handlePublish dds env.address.name env writer reader write).1.written =
          m.state.written ++ [ddsEnv])

theorem Envelope.packet_roundTrips {decode : Bytes → Option Envelope}
    (h : decode env.wire = some env) : RoundTrips env.packet decode env :=
  ⟨env, h, rfl, rfl⟩

theorem RedisActor.decode_wire {redis : Redis} (reads : Reads redis.fromStr)
    (gets : GetsText redis.getPayload) (env : Envelope) : decode redis env.wire = some env := by
  rw [decode, Envelope.wire, gets, Option.bind_some]
  exact reads.written env

theorem DdsActor.written_of_publish {dds : Dds} {s : DdsActor} {topic : String}
    {writer : WriterCalls} {reader : MatchCalls} {write : Except String Unit} {ddsEnv : DdsEnvelope}
    (he : tryFrom dds env = .ok ddsEnv)
    (h : (s.handlePublish dds topic env writer reader write).2 = .ok ()) :
    (s.handlePublish dds topic env writer reader write).1.written = s.written ++ [ddsEnv] := by
  have executed : Executed dds s (.publish env 0)
      (s.handlePublish dds topic env writer reader write).1
      (s.handlePublish dds topic env writer reader write).2 := handlePublish_executed
  generalize s.handlePublish dds topic env writer reader write = after at executed h ⊢
  obtain ⟨s', result⟩ := after
  cases executed
  case failed => cases h
  case published ddsEnv' serialized _ written =>
    cases he.symm.trans serialized
    exact written

end Departures

-- An implementation that does what is documented.
namespace SerdeJson

def toString (env : Envelope) : Except String String :=
  .ok <| String.ofList env.toJson.render

def toVec (env : Envelope) : Except String Bytes :=
  (toString env).map utf8

def fromStr (s : String) : Option Envelope :=
  match Json.parse s.toList with
  | some (.obj members) => Envelope.ofMembers members
  | _                   => none

def fromSlice (data : Bytes) : Option Envelope :=
  (ofUtf8 data).bind fromStr

theorem fromStr_reads : Reads fromStr := by
  intro text members represents
  simp [fromStr, Json.parse_represents represents]

theorem fromSlice_reads : ReadsBytes fromSlice := by
  intro text members represents
  rw [fromSlice, ofUtf8_utf8]
  exact fromStr_reads text members represents

end SerdeJson

def loneText : Envelope where
  address       := ⟨"requests/ü \"\\\n\x01😀"⟩
  method        := some ""
  payload       := [0, 34, 255]
  correlationId := none
  replyTo       := some ⟨""⟩
  contentType   := some "null"

example : loneText.toJson.render =
    ("\x7b\"address\":\"requests/ü \\\"\\\\\\n\\u0001😀\",\"method\":\"\"," ++
      "\"payload\":[0,34,255],\"correlation_id\":null,\"reply_to\":\"\"," ++
      "\"content_type\":\"null\"\x7d").toList := by
  decide +kernel

namespace SerdeJson

def rumqttc : Rumqttc where
  transportId    := "n"
  toVec          := toVec
  publishError   := fun _ => none
  subscribeError := fun _ => none

def redis : Redis where
  transportId := "n"
  toString    := toString
  getPayload  := ofUtf8
  fromStr     := fromStr

def amqp : Amqp where
  transportId := "n"
  toVec       := toVec
  fromSlice   := fromSlice

def dds : Dds where
  transportId := "n"
  toVec       := toVec
  fromSlice   := fromSlice

def fromSlice' (data : Bytes) : Except String Envelope :=
  (fromSlice data).elim (.error "expected value") .ok

theorem toOption_fromSlice' (data : Bytes) : (fromSlice' data).toOption = fromSlice data := by
  unfold fromSlice'
  cases fromSlice data <;> rfl

end SerdeJson

-- Actors that have the command in hand.
def lonePublishing : MqttTransport where
  actor := { commands := { queue := [.publish loneText 0], held := true, bounded := by decide } }

def lonePublishing' {ι σ α τ : Type} (kind : ActorKind ι σ α τ) : Actor kind where
  phase := .handling (.publish loneText 0)

end MomRpc
