import Mathlib.Logic.Function.Basic
import MomRpc.Broker.Client

namespace MomRpc

-- How a handler ends, if it does.
inductive Outcome (α : Type)
  | returned (result : Except RpcError α)
  | panicked

-- The trait object: what a call brings is up to the payload and whatever else the handler depends
-- on, which `ω` stands for.
structure HandlerFn (ω : Type) where
  call : Bytes → ω → Outcome Bytes

-- The implementation of the trait for a closure, given how its request and response types are
-- deserialized and serialized.
def Handler {TReq TResp ω : Type} (fromSlice : Bytes → Except RpcError TReq)
    (toVec : TResp → Except RpcError Bytes) (func : TReq → ω → Outcome TResp) : HandlerFn ω where
  call payload world :=
    match fromSlice payload with
    | .error err => .returned (.error err)
    | .ok req    =>
      match func req world with
      | .returned (.ok resp)   => .returned (toVec resp)
      | .returned (.error err) => .returned (.error err)
      | .panicked              => .panicked

-- How far a spawned handler task has come. `responded` tells what it has handed to
-- `transport.publish`, and whether that has returned.
inductive HandlerTask.Phase
  | calling
  | responded (response : Envelope) (published : Bool)
  | failed
  deriving DecidableEq

structure HandlerTask (ω : Type) where
  handler       : HandlerFn ω
  payload       : Bytes
  replyTo       : Address
  correlationId : String
  phase         : HandlerTask.Phase := .calling

namespace HandlerTask

variable {ω : Type}

def response (task : HandlerTask ω) (payload : Bytes) : Envelope :=
  .response task.replyTo payload task.correlationId "application/json"

-- What the task hands to `transport.publish` when its handler ends in this way.
def answer (task : HandlerTask ω) : Outcome Bytes → Option Envelope
  | .returned (.ok payload) => some (task.response payload)
  | _                       => none

end HandlerTask

-- How far `start_server_task` has come.
inductive ServerTask
  | starting
  | idle
  | taken (env : Envelope)
  | stopped

-- The server side of `RpcBroker`.
structure Server (ω : Type) where
  handlers : String → Option (HandlerFn ω) := fun _ => none
  tasks    : List (HandlerTask ω)          := []
  task     : ServerTask

namespace Server

variable {ω : Type}

def init (inner : Inner) : Server ω where
  task := if inner.mode.serves then .starting else .stopped

def registerRpcHandler (inner : Inner) (s : Server ω) (method : String) (handler : HandlerFn ω) :
    Except RpcError (Server ω) :=
  if inner.mode.serves then
    .ok { s with handlers := Function.update s.handlers method (some handler) }
  else
    .error (.invalidMode "register_rpc_handler() not allowed in Client mode")

def subscribed (s : Server ω) : Option (Server ω) :=
  match s.task with
  | .starting => some { s with task := .idle }
  | _         => none

def subscribeFailed (s : Server ω) : Option (Server ω) :=
  match s.task with
  | .starting => some { s with task := .stopped }
  | _         => none

def take (s : Server ω) (env : Envelope) : Option (Server ω) :=
  match s.task with
  | .idle => some { s with task := .taken env }
  | _     => none

def inboxClosed (s : Server ω) : Option (Server ω) :=
  match s.task with
  | .idle => some { s with task := .stopped }
  | _     => none

-- The checks of the receive loop, `none` where it continues with the next envelope.
def accept (handlers : String → Option (HandlerFn ω)) (env : Envelope) :
    Option (HandlerTask ω) := do
  let method        ← env.method
  let replyTo       ← env.replyTo
  let correlationId ← env.correlationId
  let handler       ← handlers method
  some { handler, payload := env.payload, replyTo, correlationId }

def dispatch (s : Server ω) (env : Envelope) : Option (Server ω) :=
  match s.task with
  | .taken env' =>
    if env = env' then
      some { s with tasks := s.tasks ++ (accept s.handlers env).toList, task := .idle }
    else
      none
  | _ => none

-- The handler of the `t`-th task ends; if it returns `Ok` then the task publishes `answer`.
def handled (s : Server ω) (t : ℕ) (world : ω) (answer : Option Envelope) : Option (Server ω) :=
  match s.tasks[t]? with
  | none      => none
  | some task =>
    match task.phase with
    | .calling =>
      if task.answer (task.handler.call task.payload world) = answer then
        let phase : HandlerTask.Phase :=
          match answer with
          | some response => .responded response false
          | none          => .failed
        some { s with tasks := s.tasks.set t { task with phase } }
      else
        none
    | _ => none

-- The `publish` of the `t`-th task has returned, an error is only logged.
def published (s : Server ω) (t : ℕ) : Option (Server ω) :=
  match s.tasks[t]? with
  | none      => none
  | some task =>
    match task.phase with
    | .responded response false =>
      some { s with tasks := s.tasks.set t { task with phase := .responded response true } }
    | _ => none

inductive Action (ω : Type)
  | register (method : String) (handler : HandlerFn ω)
  | subscribed
  | subscribeFailed
  | take (env : Envelope)
  | inboxClosed
  | dispatch (env : Envelope)
  | handled (t : ℕ) (world : ω) (answer : Option Envelope)
  | published (t : ℕ)

def next (inner : Inner) (s : Server ω) : Action ω → Option (Server ω)
  | .register method handler => s.registerRpcHandler inner method handler |>.toOption
  | .subscribed              => s.subscribed
  | .subscribeFailed         => s.subscribeFailed
  | .take env                => s.take env
  | .inboxClosed             => s.inboxClosed
  | .dispatch env            => s.dispatch env
  | .handled t world answer  => s.handled t world answer
  | .published t             => s.published t

def machine (ω : Type) (inner : Inner) : Machine (Server ω) (Action ω) where
  init := .init inner
  next := next inner

end Server
end MomRpc
