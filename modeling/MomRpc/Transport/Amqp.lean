import MomRpc.Transport.Actor

namespace MomRpc

-- What the actor depends on: its transport's id and `serde_json`.
structure Amqp where
  transportId : String
  toVec       : Envelope → Except String Bytes
  fromSlice   : Bytes → Option Envelope

def Amqp.packet (amqp : Amqp) (env : Envelope) : Except RpcError Packet := do
  let queue := env.address.name
  let payload ← amqp.toVec env |>.mapError fun e =>
    .transport s!"amqp: failed to serialize envelope: {e}"
  return { topic := queue, payload }

namespace Consumer

inductive Phase
  | waiting                                       -- for the next delivery
  | locking (env : Envelope)                      -- awaits the lock of the subscriber map
  | sending (env : Envelope) (senders : List ℕ)   -- holds it, has still to send to these
  | ended

end Consumer

-- A consumer task. `active` tells that the server knows its consumer.
structure Consumer where
  queue  : String
  tag    : String
  active : Bool           := true
  phase  : Consumer.Phase := .waiting

-- `consumerHandles` are the queues for which a task has been spawned, `channelOpen` tells that
-- neither the channel nor its connection has been closed.
structure AmqpActor where
  consumerHandles : List String   := []
  channelOpen     : Bool          := true
  consumers       : List Consumer := []

namespace AmqpActor

variable (amqp : Amqp)

def consumerTag : String :=
  s!"{amqp.transportId}-consumer"

-- With the channel, all of its consumers are gone.
def closeChannel (s : AmqpActor) : AmqpActor :=
  { s with
    channelOpen := false
    consumers   := s.consumers.map fun c => { c with active := false }
  }

-- How the calls into `lapin` turn out. They fail on a channel that is closed.
inductive Outcome
  | publish (published : Except String Unit)
  | subscribe (declared consumed : Except String Unit)

-- What `basic_publish` is called with, the queue as the routing key, and what is answered.
def doPublish (env : Envelope) (published : Except String Unit) :
    Option Packet × Except RpcError Unit :=
  match amqp.packet env with
  | .error err => (none, .error err)
  | .ok packet =>
    (some packet, published.mapError fun e => .transport s!"amqp: publish failed: {e}")

theorem doPublish_fst (env : Envelope) (published : Except String Unit) :
    (doPublish amqp env published).fst = (amqp.packet env).toOption := by
  unfold doPublish
  cases amqp.packet env <;> rfl

theorem doPublish_ne_retryable (env : Envelope) (published : Except String Unit)
    (details : String) :
    (doPublish amqp env published).snd ≠ .error (.transportRetryable details) := by
  intro h
  simp only [doPublish, Amqp.packet] at h
  cases hs : amqp.toVec env <;> cases published <;> rw [hs] at h <;> cases h

-- `basic_consume` with a tag that names an active consumer is an error that closes the connection.
def basicConsume (s : AmqpActor) (queue tag : String) :
    Except String Unit → Option (AmqpActor × Except String Unit)
  | .ok _    =>
    if s.consumers.any fun c => c.active ∧ c.tag = tag then
      none
    else
      some ({ s with consumers := s.consumers ++ [{ queue, tag }] }, .ok ())
  | .error e =>
    if s.consumers.any fun c => c.active ∧ c.tag = tag then
      some (s.closeChannel, .error e)
    else
      some (s, .error e)

def doSubscribe (s : AmqpActor) (queue : String) (declared consumed : Except String Unit) :
    Option (AmqpActor × Except RpcError Unit) :=
  match declared with
  | .error e => some (s, .error (.transport s!"amqp: queue declare failed: {e}"))
  | .ok _    =>
    if ¬s.channelOpen then
      none
    else if queue ∈ s.consumerHandles then
      some (s, .ok ())
    else
      s.basicConsume queue (consumerTag amqp) consumed |>.map fun
        | (s, .ok _)    => ({ s with consumerHandles := s.consumerHandles ++ [queue] }, .ok ())
        | (s, .error e) => (s, .error (.transport s!"amqp: consume failed: {e}"))

def execute (s : AmqpActor) (cmd : Cmd) (outcome : Outcome) :
    Option (AmqpActor × Except RpcError Unit) :=
  match cmd, outcome with
  | .publish env _, .publish published =>
    if published.isOk ∧ ¬s.channelOpen then none else some (s, (doPublish amqp env published).snd)
  | .subscribe queue _, .subscribe declared consumed => s.doSubscribe amqp queue declared consumed
  | _, _ => none

inductive Event
  | deliver (w : ℕ) (data : Bytes) (acked : Bool)
  | lock (w : ℕ)
  | send (w : ℕ) (i : ℕ)
  | unlock (w : ℕ)
  | error (w : ℕ)
  | ended (w : ℕ)
  | cancelled (w : ℕ)
  | closed

def set (s : AmqpActor) (w : ℕ) (c : Consumer) : AmqpActor :=
  { s with consumers := s.consumers.set w c }

-- A delivery that cannot be acknowledged or decoded is skipped.
def deliver (s : AmqpActor) (lock : List Actor.Waiter) (w : ℕ) (data : Bytes) (acked : Bool) :
    Option (AmqpActor × List Actor.Waiter) :=
  match s.consumers[w]? with
  | none   => none
  | some c =>
    match c.phase with
    | .waiting =>
      match acked, amqp.fromSlice data with
      | true, some env => some (s.set w { c with phase := .locking env }, lock ++ [.task w])
      | _, _           => some (s, lock)
    | _ => none

-- A task reads the map when it is its turn.
def lock (s : AmqpActor) (f : Fanout Empty) (lock : List Actor.Waiter) (w : ℕ) :
    Option (AmqpActor × List Actor.Waiter) :=
  match s.consumers[w]?, lock with
  | some c, .task v :: lock =>
    match c.phase with
    | .locking env =>
      let senders := (f.subscribers c.queue).getD []
      if v = w then some (s.set w { c with phase := .sending env senders }, lock) else none
    | _ => none
  | _, _ => none

-- A send to a dropped inbox fails and is logged, a send to a full inbox waits.
def send (s : AmqpActor) (f : Fanout Empty) (w i : ℕ) : Option (AmqpActor × Fanout Empty) :=
  match s.consumers[w]? with
  | none   => none
  | some c =>
    match c.phase with
    | .sending env (j :: senders) =>
      match f.handles[j]? with
      | none   => none
      | some h =>
        let s := s.set w { c with phase := .sending env senders }
        if i ≠ j then
          none
        else if h.inbox.held then
          h.inbox.trySend env |>.map fun inbox =>
            (s, { f with handles := f.handles.set i { h with inbox } })
        else
          some (s, f)
    | _ => none

def unlock (s : AmqpActor) (w : ℕ) : Option AmqpActor :=
  match s.consumers[w]? with
  | none   => none
  | some c =>
    match c.phase with
    | .sending _ [] => some <| s.set w { c with phase := .waiting }
    | _             => none

-- The task ends with its stream, which an error or the end of its consumer does.
def endTask (s : AmqpActor) (w : ℕ) (error : Bool) : Option AmqpActor :=
  match s.consumers[w]? with
  | none   => none
  | some c =>
    match c.phase with
    | .waiting => if error ∨ ¬c.active then some <| s.set w { c with phase := .ended } else none
    | _        => none

def cancelled (s : AmqpActor) (w : ℕ) : Option AmqpActor :=
  s.consumers[w]?.map fun c => s.set w { c with active := false }

def task (s : AmqpActor) (f : Fanout Empty) (lock : List Actor.Waiter) :
    Event → Option (AmqpActor × Fanout Empty × List Actor.Waiter)
  | .deliver w data acked => (s.deliver amqp lock w data acked).map fun (s, lock) => (s, f, lock)
  | .lock w               => (s.lock f lock w).map fun (s, lock) => (s, f, lock)
  | .send w i             => (s.send f w i).map fun (s, f) => (s, f, lock)
  | .unlock w             => (s.unlock w).map (·, f, lock)
  | .error w              => (s.endTask w true).map (·, f, lock)
  | .ended w              => (s.endTask w false).map (·, f, lock)
  | .cancelled w          => (s.cancelled w).map (·, f, lock)
  | .closed               => some (s.closeChannel, f, lock)

def isSending : Consumer.Phase → Bool
  | .sending _ _ => true
  | _            => false

theorem task_calls {s s' : AmqpActor} {f f' : Fanout Empty} {waiters waiters' : List Actor.Waiter}
    {event : Event} (h : s.task amqp f waiters event = some (s', f', waiters')) :
    waiters'.filterMap Actor.Waiter.call? = waiters.filterMap Actor.Waiter.call? := by
  cases event <;> simp only [task, Option.map_eq_some_iff, Prod.mk.injEq] at h
  case deliver =>
    obtain ⟨_, h, _, _, rfl⟩ := h
    simp only [deliver] at h
    split at h <;> try cases h
    split at h <;> try cases h
    split at h <;> cases h
    all_goals simp [Actor.Waiter.call?]
  case lock =>
    obtain ⟨_, h, _, _, rfl⟩ := h
    simp only [AmqpActor.lock] at h
    split at h <;> try cases h
    split at h <;> try cases h
    split at h <;> cases h
    exact (List.filterMap_cons_none rfl).symm
  case send      => obtain ⟨_, _, _, _, rfl⟩ := h; rfl
  case closed    => simp_all
  case unlock | error | ended | cancelled => obtain ⟨_, _, _, _, rfl⟩ := h; rfl

-- No task calls `handle_incoming`.
def kind : ActorKind Empty AmqpActor Event Outcome where
  caller       := RumqttcTransport.caller
  capacity     := 16
  drains       := true
  init         := {}
  ready _      := true
  free s       := s.consumers.all (¬isSending ·.phase)
  start s _    := (s, false)
  execute      := execute amqp
  task
    | .stopped, _, _, _, _ => none
    | _, s, f, lock, event => s.task amqp f lock event
  finish s     :=
    let consumers := s.consumers.map fun c => { c with active := false, phase := .ended }
    some { s with channelOpen := false, consumers }
  task_calls phase _ _ _ _ _ _ _ h := by
    cases phase
    case stopped => cases h
    all_goals exact task_calls amqp h
  task_stopped _ _ _ _ := rfl
  finish_free _ _ h    := by cases h; simp [isSending]
  start_defers _ _ _ h := by cases h

end AmqpActor
end MomRpc
