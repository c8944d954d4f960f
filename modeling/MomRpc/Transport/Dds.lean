import MomRpc.Transport.Actor

namespace MomRpc

-- What the actor depends on: its transport's id and `serde_json`.
structure Dds where
  transportId : String
  toVec       : Envelope → Except String Bytes
  fromSlice   : Bytes → Option Envelope

structure DdsEnvelope where
  topic : String
  data  : Bytes
  deriving DecidableEq

-- A reader with its task, and the samples that it has been given and has not taken.
structure DdsReader where
  topic   : String
  samples : List Bytes := []
  ended   : Bool       := false

-- `written` is what the writers have written so far. The task of the `r`-th reader fans out as the
-- `r`-th worker.
structure DdsActor where
  writers : List String      := []
  written : List DdsEnvelope := []
  readers : List DdsReader   := []

namespace DdsActor

variable (dds : Dds)

-- How the calls into `dust_dds` turn out.
structure WriterCalls where
  createTopic      : Except String Unit := .ok ()
  createPublisher  : Except String Unit := .ok ()
  createDatawriter : Except String Unit := .ok ()
  matchedStatus    : Except String Unit := .ok ()

-- `wait` is `none` if there is no match within the timeout.
structure MatchCalls where
  matchedStatus      : Except String ℕ             := .ok 1
  setEnabledStatuses : Except String Unit          := .ok ()
  attachCondition    : Except String Unit          := .ok ()
  wait               : Option (Except String Unit) := some (.ok ())
  matchedStatus'     : Except String ℕ             := .ok 1

structure ReaderCalls where
  createTopic      : Except String Unit := .ok ()
  createSubscriber : Except String Unit := .ok ()
  createDatareader : Except String Unit := .ok ()

inductive Outcome
  | publish (writer : WriterCalls) (reader : MatchCalls) (write : Except String Unit)
  | subscribe (reader : ReaderCalls)

def failed {β : Type} (what : String) (outcome : Except String β) : Except RpcError β :=
  outcome.mapError fun e => .transport s!"{what}: {e}"

def createWriter (s : DdsActor) (topic : String) (calls : WriterCalls) :
    Except RpcError DdsActor := do
  failed "create_topic failed" calls.createTopic
  failed "create_publisher failed" calls.createPublisher
  failed "create_datawriter failed" calls.createDatawriter
  failed "create_datawriter (get_publication_matched_status) failed" calls.matchedStatus
  return { s with writers := s.writers ++ [topic] }

def waitForMatchedReader (tid topic : String) (timeoutSecs : ℕ) (calls : MatchCalls) :
    Except RpcError Unit := do
  let currentCount ← failed "get_publication_matched_status failed" calls.matchedStatus
  if currentCount > 0 then
    return
  failed "set_enabled_statuses failed" calls.setEnabledStatuses
  failed "attach_condition failed" calls.attachCondition
  match calls.wait with
  | none         =>
    throw (.transport s!"{tid}: no matched readers for topic {topic} within {timeoutSecs}s")
  | some outcome => failed s!"{tid}: waitset.wait failed" outcome
  let currentCount ← failed "get_publication_matched_status failed" calls.matchedStatus'
  if currentCount = 0 then
    throw (.transport s!"{tid}: no matched readers for topic {topic}")

def tryFrom (env : Envelope) : Except RpcError DdsEnvelope := do
  let data ← failed "DDS envelope serialization failed" (dds.toVec env)
  return { topic := env.address.name, data }

-- Makes the writer that is missing.
def ensureWriter (s : DdsActor) (topic : String) (calls : WriterCalls) : Except RpcError DdsActor :=
  if topic ∈ s.writers then .ok s else s.createWriter topic calls

def handlePublish (s : DdsActor) (topic : String) (env : Envelope) (writer : WriterCalls)
    (reader : MatchCalls) (write : Except String Unit) : DdsActor × Except RpcError Unit :=
  let tid := dds.transportId
  match s.ensureWriter topic writer with
  | .error err => (s, .error err)
  | .ok s      =>
    let prepared : Except RpcError DdsEnvelope := do
      if topic ∉ s.writers then
        throw (.transport s!"DataWriter not found for topic {topic}")
      waitForMatchedReader tid topic 5 reader
      let ddsEnv ← tryFrom dds env
      failed s!"{tid}: write failed for topic {topic}" write
      return ddsEnv
    match prepared with
    | .error err  => (s, .error err)
    | .ok ddsEnv => ({ s with written := s.written ++ [ddsEnv] }, .ok ())

-- Each `Subscribe` makes another reader.
def createReader (s : DdsActor) (topic : String) (calls : ReaderCalls) :
    DdsActor × Except RpcError Unit :=
  let created : Except RpcError Unit := do
    failed "create_topic failed" calls.createTopic
    failed "create_subscriber failed" calls.createSubscriber
    failed "create_datareader failed" calls.createDatareader
  match created with
  | .error err => (s, .error err)
  | .ok _      => ({ s with readers := s.readers ++ [{ topic }] }, .ok ())

def execute (s : DdsActor) (cmd : Cmd) (outcome : Outcome) :
    Option (DdsActor × Except RpcError Unit) :=
  match cmd, outcome with
  | .publish env _, .publish writer reader write =>
    some <| s.handlePublish dds env.address.name env writer reader write
  | .subscribe topic _, .subscribe reader => some <| s.createReader topic reader
  | _, _ => none

-- Each reader on the topic is given the sample.
inductive Event
  | sample (topic : String) (data : Bytes)
  | take (r : ℕ)
  | trySend (r i : ℕ)
  | writeBack (r : ℕ)
  | ended (r : ℕ)

def sample (s : DdsActor) (topic : String) (data : Bytes) : DdsActor :=
  let give (r : DdsReader) :=
    if r.topic = topic ∧ ¬r.ended then { r with samples := r.samples ++ [data] } else r
  { s with readers := s.readers.map give }

def take (s : DdsActor) (f : Fanout ℕ) (r : ℕ) : Option (DdsActor × Fanout ℕ) :=
  match s.readers[r]? with
  | none        => none
  | some reader =>
    match reader.samples with
    | []              => none
    | data :: samples =>
      if reader.ended then
        none
      else
        f.handleIncoming dds.fromSlice r reader.topic data |>.map
          ({ s with readers := s.readers.set r { reader with samples } }, ·)

-- The task of a reader ends by an error or the shutdown that the actor requests.
def endReader (s : DdsActor) (f : Fanout ℕ) (r : ℕ) : Option DdsActor :=
  match s.readers[r]?, f.incoming r with
  | some reader, .idle => some { s with readers := s.readers.set r { reader with ended := true } }
  | _, _               => none

def task (s : DdsActor) (f : Fanout ℕ) : Event → Option (DdsActor × Fanout ℕ)
  | .sample topic data => some (s.sample topic data, f)
  | .take r            => s.take dds f r
  | .trySend r i       => (f.trySend r i).map (s, ·)
  | .writeBack r       => (f.writeBack r).map (s, ·)
  | .ended r           => (s.endReader f r).map (·, f)

end DdsActor

namespace DustddsTransport

open RumqttcTransport (Caller MethodCall)

def closed (transportId : String) (c : MethodCall) : MethodCall :=
  match c.method with
  | .publish _ => { c with phase := .returned (.error (.transport
    s!"{transportId}: actor command channel closed: channel closed")) }
  | _          => c.closed

-- `publish` returns `Ok(())` for any answer of the actor.
def receive (c : MethodCall) (reply : Except RpcError Ack) : MethodCall :=
  match c.method with
  | .publish _ => { c with phase := .returned (.ok ()) }
  | _          => c.receive reply

def disconnected (transportId : String) (c : MethodCall) : MethodCall :=
  match c.method with
  | .publish _ => { c with phase := .returned (.error (.transport
    s!"{transportId}: actor responder channel read failed: channel closed")) }
  | _          => c.disconnected

def caller (transportId : String) : Caller where
  closed       := closed transportId
  receive      := receive
  disconnected := disconnected transportId
  closed_fails c hm := by
    cases h : c.method
    case close => exact absurd h hm
    all_goals simp [closed, MethodCall.closed, h]
  closed_close c hm := by simp [closed, MethodCall.closed, hm]
  receive_returns c reply hm := by
    simp only [receive]
    split
    · exact .inl ⟨_, rfl⟩
    · exact RumqttcTransport.caller.receive_returns c reply hm
  receive_retry c topic hm := by simp [receive, MethodCall.receive, hm]
  receive_close c reply hm := by simp [receive, MethodCall.receive, hm]
  disconnected_fails c hm := by
    cases h : c.method
    case close => exact absurd h hm
    all_goals simp [disconnected, MethodCall.disconnected, h]
  disconnected_close c hm := by simp [disconnected, MethodCall.disconnected, hm]

end DustddsTransport

def DdsActor.kind (dds : Dds) : ActorKind ℕ DdsActor DdsActor.Event DdsActor.Outcome where
  caller       := DustddsTransport.caller dds.transportId
  capacity     := commandCapacity
  drains       := false
  init         := {}
  ready _      := true
  free _       := true
  start s _    := (s, false)
  execute      := execute dds
  task
    | .stopped, _, _, _, _ => none
    | _, s, f, lock, event => (s.task dds f event).map fun (s, f) => (s, f, lock)
  finish s     := if s.readers.all (·.ended) then some s else none
  task_calls phase _ _ _ _ _ _ _ h := by
    cases phase <;> simp at h
    all_goals
      obtain ⟨_, _, _, _, _, rfl⟩ := h
      rfl
  task_stopped _ _ _ _ := rfl
  finish_free _ _ _    := rfl
  start_defers _ _ _ h := by cases h

end MomRpc
