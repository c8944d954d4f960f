import MomRpc.Domain.Transport
import MomRpc.Error
import MomRpc.Lib.Machine

namespace MomRpc

-- The capacity of the actor's command channel, and that of rumqttc's request channel.
abbrev commandCapacity := 64
abbrev requestCapacity := 10

inductive Request
  | publish (topic : String) (payload : Bytes)
  | subscribe (topic : String)
  | disconnect
  deriving DecidableEq

inductive QoS
  | atMostOnce
  | atLeastOnce
  | exactlyOnce

inductive SubscribeReasonCode
  | success (qos : QoS)
  | failure

inductive ConnectionError
  | mqttState
  | networkTimeout
  | flushTimeout
  | tls
  | io
  | connectionRefused
  | notConnAck
  | requestsDone

def isDisconnect : ConnectionError → Bool
  | .io | .mqttState => true
  | _                => false

-- `{:?}` of a SUBACK's return codes.
def debugReturnCodes (codes : List SubscribeReasonCode) : String :=
  let debug
    | .success .atMostOnce  => "Success(AtMostOnce)"
    | .success .atLeastOnce => "Success(AtLeastOnce)"
    | .success .exactlyOnce => "Success(ExactlyOnce)"
    | .failure              => "Failure"
  "[" ++ ", ".intercalate (codes.map debug) ++ "]"

def accepted (codes : List SubscribeReasonCode) : Bool :=
  codes.all fun code => code matches .success _

-- What the broker knows of one connection. Sessions are clean, so it starts with nothing, and each
-- SUBSCRIBE is answered by one SUBACK in order.
structure Session where
  unanswered : List String                              := []
  answered   : List (String × List SubscribeReasonCode) := []

namespace Session

def subscriptions (s : Session) : List String :=
  s.answered.filterMap fun (topic, codes) => if accepted codes then some topic else none

def rejected (s : Session) : List String :=
  s.answered.filterMap fun (topic, codes) => if accepted codes then none else some topic

def receive (s : Session) : Request → Session
  | .subscribe topic => { s with unanswered := s.unanswered ++ [topic] }
  | _                => s

end Session

-- What rumqttc's event loop holds: the connection if there is one, requests that it has kept from
-- an earlier connection, and the request channel.
structure EventLoop where
  session  : Option Session                  := none
  pending  : List Request                    := []
  requests : Mailbox Request requestCapacity := .empty

namespace EventLoop

-- All requests that are still to be sent, in this order.
def queued (l : EventLoop) : List Request :=
  l.pending ++ l.requests.queue

-- `AsyncClient` awaits room for each request, and nothing else than `poll` makes room. The requests
-- returned are those that it still has to make by then.
def request (l : EventLoop) : List Request → EventLoop × List Request
  | []           => (l, [])
  | req :: reqs =>
    match l.requests.trySend req with
    | some requests => { l with requests }.request reqs
    | none          => (l, req :: reqs)

def transmit (l : EventLoop) : Option EventLoop :=
  match l.session, l.pending with
  | none, _                     => none
  | some session, req :: pending => some { l with pending, session := some (session.receive req) }
  | some session, []            =>
    l.requests.recv.map fun (req, requests) =>
      { l with requests, session := some (session.receive req) }

def answer (l : EventLoop) (codes : List SubscribeReasonCode) : Option EventLoop :=
  match l.session with
  | none         => none
  | some session =>
    match session.unanswered with
    | []                  => none
    | topic :: unanswered =>
      let answered := session.answered ++ [(topic, codes)]
      some { l with session := some { unanswered, answered } }

-- An error drops the connection. The event loop may keep any of the requests that it has not sent,
-- and it may have taken any number of them from the channel.
def lose (l : EventLoop) (drained : ℕ) (pending : List Request) : Option EventLoop :=
  if pending.Sublist (l.pending ++ l.requests.queue.take drained) then
    some { pending, requests := l.requests.drain drained }
  else
    none

end EventLoop

inductive Ack
  | ok
  | retry

-- `resp` is the index of the call that holds the receiving end.
inductive Cmd
  | publish (env : Envelope) (resp : ℕ)
  | subscribe (topic : String) (resp : ℕ)
  | close (resp : ℕ)

def Cmd.resp : Cmd → ℕ
  | publish _ resp | subscribe _ resp | close resp => resp

-- The list in which a transport keeps the handle of its actor's task, that is pushed there by a
-- task of its own. A call of `close` takes the handle out and awaits it while it holds the list's
-- lock.
inductive TaskList
  | spawned
  | pushed
  | joining (i : ℕ)
  | empty
  deriving DecidableEq

namespace TaskList

-- What the `i`-th call does next in the loop of `close`, and whether it is done.
def join (tasks : TaskList) (i : ℕ) (stopped : Bool) : Option (TaskList × Bool) :=
  match tasks with
  | spawned | empty => some (tasks, true)
  | pushed          => some (joining i, false)
  | joining j       => if i = j ∧ stopped then some (empty, true) else none

-- The handle is gone if the call is dropped that awaits it.
def cancel (tasks : TaskList) (i : ℕ) : TaskList :=
  if tasks = joining i then empty else tasks

end TaskList

namespace RumqttcTransport

inductive Method
  | publish (env : Envelope)
  | subscribe (topic : String)
  | close

inductive Phase
  | registering                               -- awaits the lock of the subscriber map
  | sending
  | awaiting
  | delaying
  | joining                                   -- in `close`, has yet to await the actor's task
  | returned (result : Except RpcError Unit)
  | dropped

-- A call of a method of the transport. The actor answers `publish` and `close` with `Ok(())`, which
-- is `Ack.ok` here.
structure MethodCall where
  method : Method
  phase  : Phase                        := .sending
  reply  : Option (Except RpcError Ack) := none

def MethodCall.active (c : MethodCall) : Bool :=
  c.phase matches .registering | .sending | .awaiting | .delaying | .joining

def MethodCall.cmd (c : MethodCall) (resp : ℕ) : Cmd :=
  match c.method with
  | .publish env     => .publish env resp
  | .subscribe topic => .subscribe topic resp
  | .close           => .close resp

-- A command that cannot be sent is dropped with its responder, which `close` ignores.
def MethodCall.closed (c : MethodCall) : MethodCall :=
  match c.method with
  | .close => { c with phase := .awaiting }
  | _      => { c with phase := .returned (.error (.transport
    "actor command channel closed:channel closed")) }

def MethodCall.receive (c : MethodCall) (reply : Except RpcError Ack) : MethodCall :=
  match c.method, reply with
  | .close, _               => { c with phase := .joining }
  | .subscribe _, .ok .retry => { c with phase := .delaying, reply := none }
  | _, .ok _                => { c with phase := .returned (.ok ()) }
  | _, .error err           => { c with phase := .returned (.error err) }

def MethodCall.disconnected (c : MethodCall) : MethodCall :=
  let error text := { c with phase := .returned (.error (.transport text)) }
  match c.method with
  | .publish _   => error "actor responder channel read failed:channel closed"
  | .subscribe _ => error "actor resp_rx channel read failed:channel closed"
  | .close       => { c with phase := .joining }

end RumqttcTransport

-- What the actor depends on: its transport's id, `serde_json`, and which topics `AsyncClient`
-- refuses.
structure Rumqttc where
  transportId    : String
  toVec          : Envelope → Except String Bytes
  publishError   : String → Option String
  subscribeError : String → Option String

namespace Rumqttc

variable (rumqttc : Rumqttc)

def packet (env : Envelope) : Except RpcError Packet := do
  let topic := env.address.name
  let payload ← rumqttc.toVec env |>.mapError fun err =>
    .transport s!"{rumqttc.transportId}: failed to serialize publish payload: {err}"
  return { topic, payload }

-- The packet that `AsyncClient` takes, `published` is the outcome of its `publish`.
def publish (env : Envelope) (published : Except String Unit) : Except RpcError Packet := do
  let packet ← rumqttc.packet env
  published.mapError fun err =>
    .transport s!"{rumqttc.transportId}: publish failed for topic {packet.topic}: {err}"
  return packet

theorem publish_ne_retryable (env : Envelope) (published : Except String Unit)
    (details : String) : rumqttc.publish env published ≠ .error (.transportRetryable details) := by
  intro h
  simp only [publish, packet] at h
  cases hs : rumqttc.toVec env <;> cases published <;> rw [hs] at h <;> cases h

def published (topic : String) : Except String Unit :=
  match rumqttc.publishError topic with
  | some err => .error err
  | none     => .ok ()

end Rumqttc

inductive ActorPhase
  | selecting
  | suspended (reqs : List Request)
  | stopped

-- The transport with its calls, the actor and its event loop. `subscribers` are the keys of the
-- subscriber map, whose senders are those of `MqttActor.fanout`, and `held` tells that somebody
-- still has the transport.
structure MqttActor where
  held             : Bool                             := true
  calls            : List RumqttcTransport.MethodCall := []
  commands         : Mailbox Cmd commandCapacity      := .empty
  tasks            : TaskList                         := .spawned
  subscribers      : List String                      := []
  pendingSubscribe : Option (String × ℕ)              := none
  reconnect        : Bool                             := false
  eventLoop        : EventLoop                        := {}
  phase            : ActorPhase                       := .selecting

namespace MqttActor

variable (rumqttc : Rumqttc)

def reply (m : MqttActor) (resp : ℕ) (result : Except RpcError Ack) : MqttActor :=
  { m with calls := m.calls.modify resp fun c => { c with reply := some result } }

-- Makes the requests one after the other and goes on if none of them has to wait for room.
def await (m : MqttActor) (reqs : List Request) (next : MqttActor → MqttActor) : MqttActor :=
  let (eventLoop, rest) := m.eventLoop.request reqs
  match rest with
  | [] => next { m with eventLoop }
  | _  => { m with eventLoop, phase := .suspended rest }

-- The receivers of the channels are dropped with the actor.
def stop (m : MqttActor) : MqttActor :=
  { m with
    commands         := m.commands.drop
    pendingSubscribe := none
    eventLoop        := { requests := m.eventLoop.requests.drop }
    phase            := .stopped
  }

def handlePublish (m : MqttActor) (env : Envelope) (resp : ℕ) : MqttActor :=
  match rumqttc.publish env (rumqttc.published env.address.name) with
  | .error err => m.reply resp (.error err)
  | .ok packet => m.await [.publish packet.topic packet.payload] (·.reply resp (.ok .ok))

def handleSubscribe (m : MqttActor) (topic : String) (resp : ℕ) : MqttActor :=
  let transportId := rumqttc.transportId
  match m.pendingSubscribe with
  | some _ => m.reply resp (.ok .retry)
  | none   =>
    match rumqttc.subscribeError topic with
    | some err =>
      let text := s!"{transportId}: failed to send subscribe for topic {topic}: {err}"
      m.reply resp (.error (.transport text))
    | none     => { m with pendingSubscribe := some (topic, resp) }.await [.subscribe topic] id

def handleClose (m : MqttActor) (resp : ℕ) : MqttActor :=
  m.await [.disconnect] fun m => m.reply resp (.ok .ok) |>.stop

def handle (m : MqttActor) : Cmd → MqttActor
  | .publish env resp     => m.handlePublish rumqttc env resp
  | .subscribe topic resp => m.handleSubscribe rumqttc topic resp
  | .close resp           => m.handleClose resp

def handleSuback (m : MqttActor) (codes : List SubscribeReasonCode) : MqttActor :=
  let transportId := rumqttc.transportId
  match m.pendingSubscribe with
  | none               => m
  | some (topic, resp) =>
    let m := { m with pendingSubscribe := none }
    if accepted codes then
      m.reply resp (.ok .ok)
    else
      let text := s!"{transportId}: subscription failed for topic {topic}: {debugReturnCodes codes}"
      m.reply resp (.error (.transport text))

-- A topic that `AsyncClient` refuses is logged and skipped.
def resubscribe (topics : List String) : List Request :=
  topics.filter (rumqttc.subscribeError · = none) |>.map .subscribe

def handleConnack (m : MqttActor) (topics : List String) : MqttActor :=
  if m.reconnect then m.await (resubscribe rumqttc topics) id else m

-- The outcomes of `poll`. On a reconnect, the topics are the keys of the subscriber map in the
-- order in which it iterates over them. `transmit` and `other` stand for all events which the actor
-- ignores, `publish` for those which it fans out.
inductive Event
  | connack (topics : List String)
  | suback (codes : List SubscribeReasonCode)
  | transmit
  | publish (topic : String) (message : Bytes)
  | other
  | error (err : ConnectionError) (drained : ℕ) (pending : List Request)

def poll (m : MqttActor) : Event → Option MqttActor
  | .connack topics            =>
    if m.eventLoop.session.isNone ∧ topics.Perm m.subscribers then
      let eventLoop := { m.eventLoop with session := some {} }
      some <| { m with eventLoop }.handleConnack rumqttc topics
    else
      none
  | .suback codes              =>
    m.eventLoop.answer codes |>.map fun eventLoop => { m with eventLoop }.handleSuback rumqttc codes
  | .transmit                  => m.eventLoop.transmit.map fun eventLoop => { m with eventLoop }
  | .publish _ _ | .other      => if m.eventLoop.session.isSome then some m else none
  | .error err drained pending =>
    m.eventLoop.lose drained pending |>.map fun eventLoop =>
      { m with eventLoop, reconnect := m.reconnect || isDisconnect err }

-- `subscribe` pushes its sender before it sends its first command.
def call (m : MqttActor) (method : RumqttcTransport.Method) : Option MqttActor :=
  if m.held then
    let calls := m.calls ++ [{ method }]
    match method with
    | .subscribe topic => some { m with calls, subscribers := m.subscribers.insert topic }
    | _                => some { m with calls }
  else
    none

def send (m : MqttActor) (i : ℕ) : Option MqttActor :=
  match m.calls[i]? with
  | none   => none
  | some c =>
    match c.phase with
    | .sending =>
      if m.commands.held then
        m.commands.trySend (c.cmd i) |>.map fun commands =>
          { m with commands, calls := m.calls.set i { c with phase := .awaiting } }
      else
        some { m with calls := m.calls.set i c.closed }
    | _ => none

def resume (m : MqttActor) (i : ℕ) : Option MqttActor :=
  match m.calls[i]? with
  | none   => none
  | some c =>
    match c.phase, c.reply, m.phase with
    | .awaiting, some result, _ => some { m with calls := m.calls.set i (c.receive result) }
    | .awaiting, none, .stopped => some { m with calls := m.calls.set i c.disconnected }
    | _, _, _                   => none

def retry (m : MqttActor) (i : ℕ) : Option MqttActor :=
  match m.calls[i]? with
  | none   => none
  | some c =>
    match c.phase with
    | .delaying => some { m with calls := m.calls.set i { c with phase := .sending } }
    | _         => none

def pushTask (m : MqttActor) : Option MqttActor :=
  match m.tasks with
  | .spawned => some { m with tasks := .pushed }
  | _        => none

def join (m : MqttActor) (i : ℕ) : Option MqttActor :=
  match m.calls[i]? with
  | none   => none
  | some c =>
    match c.method, c.phase with
    | .close, .joining =>
      m.tasks.join i (m.phase matches .stopped) |>.map fun (tasks, done) =>
        let c := if done then { c with phase := .returned (.ok ()) } else c
        { m with tasks, calls := m.calls.set i c }
    | _, _ => none

def cancel (m : MqttActor) (i : ℕ) : Option MqttActor :=
  match m.calls[i]? with
  | none   => none
  | some c =>
    if c.active then
      let calls := m.calls.set i { c with phase := .dropped }
      some { m with calls, tasks := m.tasks.cancel i }
    else
      none

-- The calls borrow the transport.
def drop (m : MqttActor) : Option MqttActor :=
  if m.calls.any (·.active) then none else some { m with held := false }

-- Without the transport, no more commands arrive.
def closed (m : MqttActor) : Option MqttActor :=
  if m.held ∨ m.commands.queue.length ≠ 0 then none else some m.stop

inductive Action
  | call (method : RumqttcTransport.Method)
  | send (i : ℕ)
  | resume (i : ℕ)
  | retry (i : ℕ)
  | join (i : ℕ)
  | cancel (i : ℕ)
  | pushTask
  | drop
  | handle
  | closed
  | poll (event : Event)

-- The actor's own steps, those of `select!`, are taken only while it awaits nothing else.
def step (m : MqttActor) (select : Option MqttActor) : Option MqttActor :=
  match m.phase with
  | .selecting => select
  | _          => none

def next (m : MqttActor) : Action → Option MqttActor
  | .call method => m.call method
  | .send i      => m.send i
  | .resume i    => m.resume i
  | .retry i     => m.retry i
  | .join i      => m.join i
  | .cancel i    => m.cancel i
  | .pushTask    => m.pushTask
  | .drop        => m.drop
  | .handle      => m.step <| m.commands.recv.map fun (cmd, commands) =>
    { m with commands }.handle rumqttc cmd
  | .closed      => m.step m.closed
  | .poll event  => m.step <| m.poll rumqttc event

def machine : Machine MqttActor Action where
  init := {}
  next := next rumqttc

end MqttActor
end MomRpc
