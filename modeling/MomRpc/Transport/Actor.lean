import MomRpc.Transport.Calls
import MomRpc.Transport.Fanout

namespace MomRpc

namespace Actor

inductive Phase
  | receiving
  | handling (cmd : Cmd)
  | finishing              -- has left its loop
  | stopped

-- Who waits for the lock of the subscriber map: a call of `subscribe`, in order to push its sender,
-- or a task of the transport, in order to read it.
inductive Waiter
  | call (i : ℕ)
  | task (w : ℕ)
  deriving DecidableEq

def Waiter.call? : Waiter → Option ℕ
  | .call i => some i
  | .task _ => none

end Actor

open RumqttcTransport (Caller Method MethodCall)

-- A call that fails or is dropped drops the receiver of its inbox. `owners` are the calls that have
-- pushed the senders.
def Fanout.conclude {ι : Type} (f : Fanout ι) (owners : List ℕ) (i : ℕ) (c : MethodCall) :
    Fanout ι :=
  match owners.findIdx? (· = i) with
  | none   => f
  | some k => if c.fails then (f.drop k).getD f else f

-- What differs between the transports that are served by an actor which handles one command after
-- the other. `σ` is what the actor and its tasks work on besides the subscribers, `α` are the steps
-- which they take without a command, and `τ` is how the calls into the client library turn out.
structure ActorKind (ι σ α τ : Type) where
  caller       : Caller
  capacity     : ℕ
  -- On `Close`, the actor closes the command channel and goes on with what is left in it.
  drains       : Bool
  init         : σ
  -- Whether the actor awaits commands, and whether no task holds the lock of the subscriber map.
  ready        : Fanout ι → Bool
  free         : σ → Bool
  -- Only `Ack::Retry` is answered at once.
  start        : σ → Cmd → σ × Bool
  execute      : σ → Cmd → τ → Option (σ × Except RpcError Unit)
  task         : Actor.Phase → σ → Fanout ι → List Actor.Waiter → α →
    Option (σ × Fanout ι × List Actor.Waiter)
  finish       : σ → Option σ
  -- No task lets a call pass another one in the queue for the lock.
  task_calls   : ∀ phase s f lock a s' f' lock', task phase s f lock a = some (s', f', lock') →
    lock'.filterMap Actor.Waiter.call? = lock.filterMap Actor.Waiter.call?
  task_stopped : ∀ s f lock a, task .stopped s f lock a = none
  finish_free  : ∀ s s', finish s = some s' → free s'
  start_defers : ∀ s cmd s', start s cmd = (s', true) → ∃ topic resp, cmd = .subscribe topic resp

-- The transport with its calls and the actor. `owners` are the calls that have pushed the senders
-- and hold the receivers, in this order.
structure Actor {ι σ α τ : Type} (kind : ActorKind ι σ α τ) where
  held        : Bool                      := true
  calls       : List MethodCall           := []
  commands    : Mailbox Cmd kind.capacity := .empty
  closing     : Bool                      := false
  tasks       : TaskList                  := .spawned
  phase       : Actor.Phase               := .receiving
  state       : σ                         := kind.init
  lock        : List Actor.Waiter         := []
  subscribers : Fanout ι                  := {}
  owners      : List ℕ                    := []

namespace Actor

variable {ι σ α τ : Type} {kind : ActorKind ι σ α τ}

def reply (m : Actor kind) (resp : ℕ) (result : Except RpcError Ack) : Actor kind :=
  { m with calls := m.calls.modify resp fun c => { c with reply := some result } }

-- The commands that the actor has in hand or finds in its queue, with their responders.
def pending (m : Actor kind) : List Cmd :=
  match m.phase with
  | .handling cmd => cmd :: m.commands.queue
  | _             => m.commands.queue

def responders (m : Actor kind) : List ℕ :=
  m.pending.map Cmd.resp

def conclude (m : Actor kind) (i : ℕ) (c : MethodCall) : Actor kind :=
  let subscribers := m.subscribers.conclude m.owners i c
  { m with calls := m.calls.set i c, subscribers }

def call (m : Actor kind) (method : Method) : Option (Actor kind) :=
  if m.held then
    match method with
    | .subscribe _ =>
      let calls := m.calls ++ [{ method, phase := .registering }]
      some { m with calls, lock := m.lock ++ [.call m.calls.length] }
    | _            => some { m with calls := m.calls ++ [{ method }] }
  else
    none

def register (m : Actor kind) (i : ℕ) : Option (Actor kind) :=
  match m.calls[i]?, m.lock with
  | some c, .call j :: lock =>
    match c.method, c.phase with
    | .subscribe topic, .registering =>
      if i = j ∧ kind.free m.state then
        let calls := m.calls.set i { c with phase := .sending }
        let subscribers := m.subscribers.subscribe topic
        some { m with calls, lock, subscribers, owners := m.owners ++ [i] }
      else
        none
    | _, _ => none
  | _, _ => none

def send (m : Actor kind) (i : ℕ) : Option (Actor kind) :=
  match m.calls[i]? with
  | none   => none
  | some c =>
    match c.phase with
    | .sending =>
      if m.commands.held ∧ ¬m.closing then
        m.commands.trySend (c.cmd i) |>.map fun commands =>
          { m with commands, calls := m.calls.set i { c with phase := .awaiting } }
      else
        some <| m.conclude i (kind.caller.closed c)
    | _ => none

def resume (m : Actor kind) (i : ℕ) : Option (Actor kind) :=
  match m.calls[i]? with
  | none   => none
  | some c =>
    match c.phase, c.reply with
    | .awaiting, some result => some <| m.conclude i (kind.caller.receive c result)
    | .awaiting, none        =>
      if i ∈ m.responders then none else some <| m.conclude i (kind.caller.disconnected c)
    | _, _ => none

def retry (m : Actor kind) (i : ℕ) : Option (Actor kind) :=
  match m.calls[i]? with
  | none   => none
  | some c =>
    match c.phase with
    | .delaying => some { m with calls := m.calls.set i { c with phase := .sending } }
    | _         => none

def pushTask (m : Actor kind) : Option (Actor kind) :=
  match m.tasks with
  | .spawned => some { m with tasks := .pushed }
  | _        => none

def join (m : Actor kind) (i : ℕ) : Option (Actor kind) :=
  match m.calls[i]? with
  | none   => none
  | some c =>
    match c.method, c.phase with
    | .close, .joining =>
      m.tasks.join i (m.phase matches .stopped) |>.map fun (tasks, done) =>
        let c := if done then { c with phase := .returned (.ok ()) } else c
        { m with tasks, calls := m.calls.set i c }
    | _, _ => none

def cancel (m : Actor kind) (i : ℕ) : Option (Actor kind) :=
  match m.calls[i]? with
  | none   => none
  | some c =>
    if c.active then
      let m := { m with tasks := m.tasks.cancel i, lock := m.lock.erase (.call i) }
      some <| m.conclude i { c with phase := .dropped }
    else
      none

-- The calls borrow the transport.
def drop (m : Actor kind) : Option (Actor kind) :=
  if m.calls.any (·.active) then none else some { m with held := false }

def handle (m : Actor kind) : Option (Actor kind) :=
  match m.phase, kind.ready m.subscribers with
  | .receiving, true =>
    m.commands.recv.map fun (cmd, commands) =>
      let m := { m with commands }
      match cmd with
      | .close resp =>
        if kind.drains then
          { m.reply resp (.ok .ok) with closing := true }
        else
          { m.reply resp (.ok .ok) with phase := .finishing }
      | _ =>
        match kind.start m.state cmd with
        | (state, true)  => { m.reply cmd.resp (.ok .retry) with state }
        | (state, false) => { m with state, phase := .handling cmd }
  | _, _ => none

def execute (m : Actor kind) (outcome : τ) : Option (Actor kind) :=
  match m.phase with
  | .handling cmd =>
    kind.execute m.state cmd outcome |>.map fun (state, result) =>
      { m.reply cmd.resp (result.map fun _ => .ok) with state, phase := .receiving }
  | _ => none

-- No more commands arrive once the channel is closed or the transport is gone.
def ended (m : Actor kind) : Option (Actor kind) :=
  match m.phase, kind.ready m.subscribers, m.commands.queue with
  | .receiving, true, [] =>
    if m.closing ∨ ¬m.held then some { m with phase := .finishing } else none
  | _, _, _ => none

-- The tasks end with the actor, and so do its receivers.
def finish (m : Actor kind) : Option (Actor kind) :=
  match m.phase with
  | .finishing =>
    kind.finish m.state |>.map fun state =>
      let lock := m.lock.filter (·.call?.isSome)
      { m with state, lock, commands := m.commands.drop, phase := .stopped }
  | _ => none

def task (m : Actor kind) (a : α) : Option (Actor kind) :=
  kind.task m.phase m.state m.subscribers m.lock a |>.map fun (state, subscribers, lock) =>
    { m with state, subscribers, lock }

-- The inbox of a successful call is the caller's.
def inbox (m : Actor kind) (k : ℕ) (use : Fanout ι → ℕ → Option (Fanout ι)) :
    Option (Actor kind) := do
  let i ← m.owners[k]?
  let c ← m.calls[i]?
  match c.phase with
  | .returned (.ok _) => (use m.subscribers k).map fun subscribers => { m with subscribers }
  | _                 => none

inductive Action (α τ : Type)
  | call (method : Method)
  | register (i : ℕ)
  | send (i : ℕ)
  | resume (i : ℕ)
  | retry (i : ℕ)
  | join (i : ℕ)
  | cancel (i : ℕ)
  | recv (k : ℕ)
  | dropInbox (k : ℕ)
  | pushTask
  | drop
  | handle
  | execute (outcome : τ)
  | ended
  | finish
  | task (a : α)

def next (m : Actor kind) : Action α τ → Option (Actor kind)
  | .call method     => m.call method
  | .register i      => m.register i
  | .send i          => m.send i
  | .resume i        => m.resume i
  | .retry i         => m.retry i
  | .join i          => m.join i
  | .cancel i        => m.cancel i
  | .recv k          => m.inbox k Fanout.recv
  | .dropInbox k     => m.inbox k Fanout.drop
  | .pushTask        => m.pushTask
  | .drop            => m.drop
  | .handle          => m.handle
  | .execute outcome => m.execute outcome
  | .ended           => m.ended
  | .finish          => m.finish
  | .task a          => m.task a

def machine (kind : ActorKind ι σ α τ) : Machine (Actor kind) (Action α τ) where
  init := {}
  next := next

end Actor
end MomRpc
