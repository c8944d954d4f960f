import MomRpc.Broker.Theorems.Cluster
import MomRpc.Broker.Theorems.Protocol
import MomRpc.Transport.Theorems.Carriers
import MomRpc.Transport.Theorems.Wire

namespace MomRpc.Cluster

open SerdeJson (Reads ReadsBytes Writes WritesBytes)

section Lawful

variable {β : Type} {env : Envelope} {p : Packet}

theorem lawful_mqtt {rumqttc : β → Rumqttc} {fromSlice : Bytes → Option Envelope}
    (writes : ∀ b, WritesBytes (rumqttc b).toVec) (reads : ReadsBytes fromSlice) :
    Lawful fun b => MqttTransport.carrier (rumqttc b) fromSlice where
  carriers b := MqttTransport.carrier_lawful (rumqttc b) fromSlice
  trips b _ env p h := by
    obtain rfl := Rumqttc.packet_of_sends (writes b) h
    exact ⟨reads.written env, rfl⟩

theorem lawful_redis {redis : β → Redis} (writes : ∀ b, Writes (redis b).toString)
    (reads : ∀ b, Reads (redis b).fromStr) (gets : ∀ b, GetsText (redis b).getPayload) :
    Lawful fun b => RedisActor.carrier (redis b) where
  carriers b := RedisActor.carrier_lawful (redis b)
  trips b b' env p h := by
    replace h : ((redis b).packet env).toOption = some p := h
    rw [Redis.packet_eq (writes b)] at h
    cases h
    exact ⟨RedisActor.decode_wire (reads b') (gets b') env, rfl⟩

theorem lawful_amqp {amqp : β → Amqp} (writes : ∀ b, WritesBytes (amqp b).toVec)
    (reads : ∀ b, ReadsBytes (amqp b).fromSlice) :
    Lawful fun b => AmqpActor.carrier (amqp b) where
  carriers b := AmqpActor.carrier_lawful (amqp b)
  trips b b' env p h := by
    replace h : ((amqp b).packet env).toOption = some p := h
    rw [Amqp.packet_eq (writes b)] at h
    cases h
    exact ⟨(reads b').written env, rfl⟩

theorem lawful_dds {dds : β → Dds} (writes : ∀ b, WritesBytes (dds b).toVec)
    (reads : ∀ b, ReadsBytes (dds b).fromSlice) :
    Lawful fun b => DdsActor.carrier (dds b) where
  carriers b := DdsActor.carrier_lawful (dds b)
  trips b b' env p h := by
    replace h : (DdsActor.tryFrom (dds b) env).toOption.map DdsEnvelope.packet = some p := h
    rw [DdsActor.tryFrom_eq (writes b)] at h
    cases h
    exact ⟨(reads b').written env, rfl⟩

end Lawful

section Each

variable {β ρ ω : Type} [DecidableEq β]

-- In every run of brokers over each of the transports, the property holds of what the brokers have
-- done and of the clients and servers they have come to. The third-party code writes and reads as
-- it is documented to.
def OverEach (inner : β → Inner)
    (P : List (Rpc.Action β ρ ω) → (β → Client ρ) → (β → Server ω) → Prop) : Prop :=
  (∀ as net, (Network.machine ρ ω inner).Run as net →
    P (as.filterMap Network.Action.rpc?) net.clients net.servers) ∧
  (∀ (rumqttc : β → Rumqttc) fromSlice, (∀ b, WritesBytes (rumqttc b).toVec) →
    ReadsBytes fromSlice → ∀ as net,
    (machine (fun b => MqttTransport.carrier (rumqttc b) fromSlice) ρ ω inner).Run as net →
      P (as.filterMap Action.rpc?) net.clients net.servers) ∧
  (∀ redis : β → Redis, (∀ b, Writes (redis b).toString) → (∀ b, Reads (redis b).fromStr) →
    (∀ b, GetsText (redis b).getPayload) → ∀ as net,
    (machine (fun b => RedisActor.carrier (redis b)) ρ ω inner).Run as net →
      P (as.filterMap Action.rpc?) net.clients net.servers) ∧
  (∀ amqp : β → Amqp, (∀ b, WritesBytes (amqp b).toVec) → (∀ b, ReadsBytes (amqp b).fromSlice) →
    ∀ as net, (machine (fun b => AmqpActor.carrier (amqp b)) ρ ω inner).Run as net →
      P (as.filterMap Action.rpc?) net.clients net.servers) ∧
  ∀ dds : β → Dds, (∀ b, WritesBytes (dds b).toVec) → (∀ b, ReadsBytes (dds b).fromSlice) →
    ∀ as net, (machine (fun b => DdsActor.carrier (dds b)) ρ ω inner).Run as net →
      P (as.filterMap Action.rpc?) net.clients net.servers

-- What holds in every run of the protocol holds over each of the transports.
theorem overEach_of_protocol {inner : β → Inner}
    {P : List (Rpc.Action β ρ ω) → (β → Client ρ) → (β → Server ω) → Prop}
    (h : ∀ as rpc, (Rpc.machine ρ ω inner).Run as rpc → P as rpc.clients rpc.servers) :
    OverEach inner P := by
  have carried {C : β → Carrier} (law : Lawful C) as net
      (r : (machine C ρ ω inner).Run as net) :
      P (as.filterMap Action.rpc?) net.clients net.servers := by
    have ⟨rpc, run, pr⟩ := refines law r
    exact pr.clients ▸ pr.servers ▸ h _ rpc run
  refine ⟨?memory, ?mqtt, ?redis, ?amqp, ?dds⟩
  case memory =>
    intro as net r
    have ⟨rpc, run, pr⟩ := Network.refines r
    exact pr.clients ▸ pr.servers ▸ h _ rpc run
  case mqtt  => exact fun _ _ writes reads => carried <| lawful_mqtt writes reads
  case redis => exact fun _ writes reads gets => carried <| lawful_redis writes reads gets
  case amqp  => exact fun _ writes reads => carried <| lawful_amqp writes reads
  case dds   => exact fun _ writes reads => carried <| lawful_dds writes reads

-- The brokers do over each of the transports what they may do over the protocol's medium.
theorem rpc_refined (inner : β → Inner) :
    OverEach (ρ := ρ) (ω := ω) inner fun as clients servers =>
      ∃ rpc, (Rpc.machine ρ ω inner).Run as rpc ∧ rpc.clients = clients ∧ rpc.servers = servers :=
  overEach_of_protocol fun _ rpc r => ⟨rpc, r, rfl, rfl⟩

theorem rpc_safe (inner : β → Inner) : OverEach (ρ := ρ) (ω := ω) inner (Rpc.Safe inner) :=
  overEach_of_protocol fun _ _ => Rpc.Safe.of_run

end Each

-- A client and a server.
def pair : Bool → Inner
  | false => { nodeId := "c", mode := .client }
  | true  => { nodeId := "n", mode := .server }

def pairEcho : HandlerFn Unit :=
  Handler .ok .ok fun req _ => .returned (.ok req)

def pairEnv : Envelope :=
  (pair false).request "n" "m" [1] "id"

def pairAnswer : Envelope :=
  .response ⟨responsesName "c"⟩ [1] "id" "application/json"

def memoryRun : List (Network.Action Bool Bytes Unit) := [
    .subscribed (.requests true), .server true (.register "m" pairEcho),
    .subscribed (.responses false), .client false (.request "n" "m" (.ok [1]) .ok),
    .attempt false 0 "id" 0 pairEnv, .hub (.acquire (.request false 0)),
    .hub (.send (.request false 0) 0), .requested false 0 0, .receive (.requests true) 0 pairEnv,
    .server true (.dispatch pairEnv), .handled true 0 () (some pairAnswer),
    .hub (.acquire (.response true 0)), .hub (.send (.response true 0) 1), .responded true 0,
    .receive (.responses false) 1 pairAnswer, .client false (.lookup pairAnswer),
    .client false (.deliver 0 [1]), .client false (.respond 0)
  ]

-- A call and its response, given how a transport carries out a call of `subscribe`, which is its
-- first, and one of `publish`, and how it takes what arrives for its only subscription.
def pairRun (C : Carrier) (subscribing : String → List C.Action) (publishing : List C.Action)
    (taking : Envelope → List C.Action) : List (Action (fun _ : Bool => C) Bytes Unit) :=
  let alone (b : Bool) (acts : List C.Action) : List (Action (fun _ : Bool => C) Bytes Unit) :=
    acts.map (.transport b)
  .subscribe (.requests true) :: alone true (subscribing "requests/n") ++
  [.subscribed (.requests true) (.ok ()), .server true (.register "m" pairEcho),
    .subscribe (.responses false)] ++ alone false (subscribing "responses/c") ++
  [.subscribed (.responses false) (.ok ()), .client false (.request "n" "m" (.ok [1]) .ok),
    .attempt false 0 "id" 0 pairEnv] ++ alone false publishing ++
  .requested false 0 (.ok ()) 0 :: alone true (taking pairEnv) ++
  [.receive (.requests true) 0 pairEnv, .server true (.dispatch pairEnv),
    .handled true 0 () (some pairAnswer)] ++ alone true publishing ++
  .responded true 0 :: alone false (taking pairAnswer) ++
  [.receive (.responses false) 0 pairAnswer, .client false (.lookup pairAnswer),
    .client false (.deliver 0 [1]), .client false (.respond 0)]

def mqttRun :=
  pairRun (MqttTransport.carrier SerdeJson.rumqttc SerdeJson.fromSlice)
    (fun topic => [.actor (.send 0), .actor .handle, .actor (.poll (.connack [topic])),
      .actor (.poll .transmit), .actor (.poll (.suback [.success .atLeastOnce])),
      .actor (.resume 0)])
    [.actor (.send 1), .actor .handle, .actor (.resume 1), .actor (.poll .transmit)]
    fun env => [.actor (.poll (.publish env.address.name env.wire)), .trySend 0, .writeBack]

def redisRun :=
  pairRun (RedisActor.carrier SerdeJson.redis)
    (fun _ => [.register 0, .send 0, .handle, .execute (.ok ()), .resume 0])
    [.send 1, .handle, .execute (.ok ()), .resume 1]
    fun env => [.task (.message env.address.name env.wire), .task (.trySend 0), .task .writeBack]

def amqpRun :=
  pairRun (AmqpActor.carrier SerdeJson.amqp)
    (fun _ => [.register 0, .send 0, .handle, .execute (.subscribe (.ok ()) (.ok ())), .resume 0])
    [.send 1, .handle, .execute (.publish (.ok ())), .resume 1]
    fun env => [.task (.deliver 0 env.wire true), .task (.lock 0), .task (.send 0 0),
      .task (.unlock 0)]

def ddsRun :=
  pairRun (DdsActor.carrier SerdeJson.dds)
    (fun _ => [.register 0, .send 0, .handle, .execute (.subscribe {}), .resume 0])
    [.send 1, .handle, .execute (.publish {} {} (.ok ())), .resume 1]
    fun env => [.task (.sample env.address.name env.wire), .task (.take 0), .task (.trySend 0 0),
      .task (.writeBack 0)]

def pairResult? (clients : Bool → Client Bytes) : Option Bytes :=
  match (clients false).calls[0]?.map Call.phase with
  | some (.returned (.ok v)) => some v
  | _                        => none

def pairEnd (C : Carrier) (as : List (Action (fun _ : Bool => C) Bytes Unit)) : Option Bytes :=
  ((machine (fun _ => C) Bytes Unit pair).exec (machine (fun _ => C) Bytes Unit pair).init as).bind
    (pairResult? ·.clients)

theorem run_of_pairEnd {C : Carrier} {as : List (Action (fun _ : Bool => C) Bytes Unit)}
    (h : pairEnd C as = some [1]) :
    ∃ net, (machine (fun _ => C) Bytes Unit pair).Run as net ∧ pairResult? net.clients = some [1] :=
  Option.bind_eq_some_iff.mp h

-- The property holds where the runs above end, each of which completes the call.
def PairEach (P : List (Rpc.Action Bool Bytes Unit) → (Bool → Client Bytes) →
    (Bool → Server Unit) → Prop) : Prop :=
  let Carried {C : Carrier} (as : List (Action (fun _ : Bool => C) Bytes Unit)) : Prop :=
    ∃ net, (machine (fun _ => C) Bytes Unit pair).Run as net ∧
      pairResult? net.clients = some [1] ∧
      P (as.filterMap Action.rpc?) net.clients net.servers
  (∃ net, (Network.machine Bytes Unit pair).Run memoryRun net ∧
    pairResult? net.clients = some [1] ∧
    P (memoryRun.filterMap Network.Action.rpc?) net.clients net.servers) ∧
  Carried mqttRun ∧ Carried redisRun ∧ Carried amqpRun ∧ Carried ddsRun

theorem pairEach_of_overEach
    {P : List (Rpc.Action Bool Bytes Unit) → (Bool → Client Bytes) → (Bool → Server Unit) → Prop}
    (h : OverEach pair P) : PairEach P := by
  have ⟨memory, mqtt, redis, amqp, dds⟩ := h
  have writes : WritesBytes SerdeJson.toVec := fun _ => rfl
  have reads := SerdeJson.fromSlice_reads
  refine ⟨?memory, ?mqtt, ?redis, ?amqp, ?dds⟩
  case memory =>
    have r : (Network.machine Bytes Unit pair).Run memoryRun _ := Machine.Run.of_isSome rfl
    exact ⟨_, r, rfl, memory _ _ r⟩
  case mqtt =>
    have ⟨_, r, result⟩ := run_of_pairEnd (by decide +kernel : pairEnd _ mqttRun = some [1])
    exact ⟨_, r, result, mqtt (fun _ => SerdeJson.rumqttc) _ (fun _ => writes) reads _ _ r⟩
  case redis =>
    have ⟨_, r, result⟩ := run_of_pairEnd (by decide +kernel : pairEnd _ redisRun = some [1])
    exact ⟨_, r, result, redis (fun _ => SerdeJson.redis) (fun _ _ => rfl)
      (fun _ => SerdeJson.fromStr_reads) (fun _ => ofUtf8_utf8) _ _ r⟩
  case amqp =>
    have ⟨_, r, result⟩ := run_of_pairEnd (by decide +kernel : pairEnd _ amqpRun = some [1])
    exact ⟨_, r, result, amqp (fun _ => SerdeJson.amqp) (fun _ => writes) (fun _ => reads) _ _ r⟩
  case dds =>
    have ⟨_, r, result⟩ := run_of_pairEnd (by decide +kernel : pairEnd _ ddsRun = some [1])
    exact ⟨_, r, result, dds (fun _ => SerdeJson.dds) (fun _ => writes) (fun _ => reads) _ _ r⟩

theorem rpc_refined_pair :
    PairEach fun as clients servers =>
      ∃ rpc, (Rpc.machine Bytes Unit pair).Run as rpc ∧ rpc.clients = clients ∧
        rpc.servers = servers :=
  pairEach_of_overEach <| rpc_refined pair

theorem rpc_safe_pair : PairEach (Rpc.Safe pair) :=
  pairEach_of_overEach <| rpc_safe pair

end MomRpc.Cluster
