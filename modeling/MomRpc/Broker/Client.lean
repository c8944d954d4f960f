import Mathlib.Logic.Function.Basic
import MomRpc.Domain.Transport
import MomRpc.Lib.Machine
import MomRpc.Retry

namespace MomRpc

-- The part of `RpcBroker` that never changes.
structure Inner (D : Type := Duration) {M : Type} [Delays D M] where
  nodeId              : String
  mode                : BrokerMode
  retryConfig         : Option (RetryConfig D) := none
  requestTotalTimeout : D                      := Delays.fromSecs 30

namespace Inner

variable {D M : Type} [Delays D M]

def notAllowed : RpcError :=
  .invalidMode "request_to() not allowed in Server mode"

def timeoutError (inner : Inner D) : RpcError :=
  if inner.retryConfig.isSome then
    .transportRetryable "request timeout waiting for response, will retry"
  else
    .timeout

def closedError : RpcError :=
  .transport
    "response channel closed (server dropped or transport shutdown:RecvError(()))"

-- The error with which `request_to` returns before it makes an attempt, `req` is the outcome of
-- serializing the request.
def rejection (inner : Inner D) (req : Except RpcError Bytes) : Option RpcError :=
  match inner.mode.requests, req with
  | false, _         => some notAllowed
  | true, .error err => some err
  | true, .ok _      => none

def request (inner : Inner D) (targetNodeId method : String) (reqBytes : Bytes)
    (correlationId : String) : Envelope :=
  .request ⟨requestsName targetNodeId⟩ method reqBytes correlationId ⟨responsesName inner.nodeId⟩
    "application/json"

end Inner

-- How far a call of `request_to_inner_with_timeout` has come.
inductive Attempt.Phase
  | publishing
  | waiting
  | ended (result : Except RpcError Bytes)
  | dropped

-- `response` is what the attempt's oneshot channel holds.
structure Attempt where
  call          : ℕ
  correlationId : String
  env           : Envelope
  phase         : Attempt.Phase := .publishing
  response      : Option Bytes  := none

namespace Attempt

-- The receiver of the oneshot channel exists until the attempt is over.
def Live (a : Attempt) : Prop :=
  match a.phase with
  | .publishing | .waiting => True
  | .ended _ | .dropped    => False

instance {a : Attempt} : Decidable a.Live := by
  unfold Live
  split <;> infer_instance

def send (a : Attempt) (payload : Bytes) : Attempt :=
  if a.Live then { a with response := payload } else a

end Attempt

-- How far a call of `request_to_with_timeout` has come, `ρ` comprises the responses of all types.
inductive Call.Phase (ρ : Type)
  | ready
  | attempting (i : ℕ)
  | sleeping
  | returned (result : Except RpcError ρ)
  | dropped
  | panicked

structure Call (ρ : Type) where
  targetNodeId : String
  method       : String
  reqBytes     : Bytes
  fromSlice    : Bytes → Except RpcError ρ
  loop         : Option RetryLoop
  phase        : Call.Phase ρ := .ready

namespace Call

variable {ρ : Type}

def finish (call : Call ρ) (result : Except RpcError Bytes) : Call ρ :=
  { call with phase := .returned (result.bind call.fromSlice) }

-- An attempt is over: the rest of the body of `retry_with_backoff`, up to its `sleep(..)`.
def resolve (inner : Inner) (call : Call ρ) (hash : UInt64) (result : Except RpcError Bytes) :
    Call ρ :=
  match inner.retryConfig, call.loop with
  | some cfg, some loop =>
    match loop.onResult cfg hash result with
    | .finished result => call.finish result
    | .sleep _ loop    => { call with loop, phase := .sleeping }
    | .panicked        => { call with phase := .panicked }
  | _, _ => call.finish result

end Call

-- How far `start_client_task` has come; nothing it does between two receives awaits anything, but
-- it runs in parallel to the callers.
inductive ClientTask
  | starting
  | idle
  | taken (env : Envelope)
  | matched (tx : ℕ) (payload : Bytes)
  | stopped

-- The client side of `RpcBroker`. A sender in `pending` is the index of the attempt it sends to.
structure Client (ρ : Type) where
  pending  : String → Option ℕ := fun _ => none
  attempts : List Attempt      := []
  calls    : List (Call ρ)     := []
  task     : ClientTask

namespace Client

variable {ρ : Type}

def init (inner : Inner) : Client ρ where
  task := if inner.mode.requests then .starting else .stopped

def subscribed (c : Client ρ) : Option (Client ρ) :=
  match c.task with
  | .starting => some { c with task := .idle }
  | _         => none

def subscribeFailed (c : Client ρ) : Option (Client ρ) :=
  match c.task with
  | .starting => some { c with task := .stopped }
  | _         => none

def take (c : Client ρ) (env : Envelope) : Option (Client ρ) :=
  match c.task with
  | .idle => some { c with task := .taken env }
  | _     => none

def inboxClosed (c : Client ρ) : Option (Client ρ) :=
  match c.task with
  | .idle => some { c with task := .stopped }
  | _     => none

def lookup (c : Client ρ) (env : Envelope) : Option (Client ρ) :=
  match c.task with
  | .taken env' =>
    if env = env' then
      match env.correlationId with
      | none               => some { c with task := .idle }
      | some correlationId =>
        match c.pending correlationId with
        | none    => some { c with task := .idle }
        | some tx => some { c with
            pending := Function.update c.pending correlationId none
            task    := .matched tx env.payload
          }
    else
      none
  | _ => none

def deliver (c : Client ρ) (i : ℕ) (payload : Bytes) : Option (Client ρ) :=
  match c.task with
  | .matched tx payload' =>
    if i = tx ∧ payload = payload' then
      some { c with attempts := c.attempts.modify i (·.send payload), task := .idle }
    else
      none
  | _ => none

-- `req` is the outcome of serializing the request.
def request (inner : Inner) (c : Client ρ) (targetNodeId method : String)
    (req : Except RpcError Bytes) (fromSlice : Bytes → Except RpcError ρ) : Client ρ :=
  let loop := inner.retryConfig.map RetryLoop.init
  let call (reqBytes : Bytes) : Call ρ := { targetNodeId, method, reqBytes, fromSlice, loop }
  let call : Call ρ :=
    if inner.mode.requests then
      match req with
      | .ok reqBytes => call reqBytes
      | .error err   => { call [] with phase := .returned (.error err) }
    else
      { call [] with phase := .returned (.error Inner.notAllowed) }
  { c with calls := c.calls ++ [call] }

-- `correlationId` is what `CorrelationId::generate` returns, which it has not returned before.
def attempt (inner : Inner) (c : Client ρ) (k : ℕ) (correlationId : String) : Option (Client ρ) :=
  match c.calls[k]? with
  | none      => none
  | some call =>
    match call.phase with
    | .ready =>
      if ∀ a ∈ c.attempts, a.correlationId ≠ correlationId then
        let i   := c.attempts.length
        let env := inner.request call.targetNodeId call.method call.reqBytes correlationId
        some { c with
          pending  := Function.update c.pending correlationId (some i)
          attempts := c.attempts ++ [{ call := k, correlationId, env }]
          calls    := c.calls.set k { call with phase := .attempting i }
        }
      else
        none
    | _ => none

def conclude (inner : Inner) (c : Client ρ) (i : ℕ) (a : Attempt) (hash : UInt64)
    (result : Except RpcError Bytes) : Client ρ :=
  { c with
    attempts := c.attempts.set i { a with phase := .ended result }
    calls    := c.calls.modify a.call (·.resolve inner hash result) }

-- `transport.publish(env)` has returned `result`.
def published (inner : Inner) (c : Client ρ) (i : ℕ) (result : Except RpcError Unit)
    (hash : UInt64) : Option (Client ρ) :=
  match c.attempts[i]? with
  | none   => none
  | some a =>
    match a.phase with
    | .publishing =>
      match result with
      | .ok _      => some { c with attempts := c.attempts.set i { a with phase := .waiting } }
      | .error err => some <| c.conclude inner i a hash (.error err)
    | _ => none

-- The sender of the `i`-th attempt's channel is in the map or with the client task.
def HasSender (c : Client ρ) (i : ℕ) (a : Attempt) : Prop :=
  c.pending a.correlationId = some i ∨
    match c.task with
    | .matched tx _ => tx = i
    | _             => False

instance {c : Client ρ} {i : ℕ} {a : Attempt} : Decidable (c.HasSender i a) := by
  unfold HasSender
  refine @instDecidableOr _ _ inferInstance ?_
  split <;> infer_instance

-- `time::timeout(timeout, rx)` polls `rx` before it looks at the time.
def respond (inner : Inner) (c : Client ρ) (i : ℕ) : Option (Client ρ) :=
  match c.attempts[i]? with
  | none   => none
  | some a =>
    match a.phase, a.response with
    | .waiting, some payload => some <| c.conclude inner i a 0 (.ok payload)
    | _, _                   => none

def timeout (inner : Inner) (c : Client ρ) (i : ℕ) (hash : UInt64) : Option (Client ρ) :=
  match c.attempts[i]? with
  | none   => none
  | some a =>
    match a.phase, a.response with
    | .waiting, none =>
      if c.HasSender i a then
        some <| c.conclude inner i a hash (.error inner.timeoutError)
      else
        none
    | _, _ => none

def closed (inner : Inner) (c : Client ρ) (i : ℕ) : Option (Client ρ) :=
  match c.attempts[i]? with
  | none   => none
  | some a =>
    match a.phase, a.response with
    | .waiting, none =>
      if c.HasSender i a then
        none
      else
        some <| c.conclude inner i a 0 (.error Inner.closedError)
    | _, _ => none

-- A backoff sleep of the `k`-th call is over.
def wake (inner : Inner) (c : Client ρ) (k : ℕ) : Option (Client ρ) :=
  match c.calls[k]? with
  | none      => none
  | some call =>
    match call.phase, inner.retryConfig, call.loop with
    | .sleeping, some cfg, some loop =>
      let call : Call ρ :=
        match loop.afterSleep cfg with
        | none      => { call with phase := .panicked }
        | some loop => { call with loop, phase := .ready }
      some { c with calls := c.calls.set k call }
    | _, _, _ => none

-- The caller drops the future of the `k`-th call.
def drop (c : Client ρ) (k : ℕ) : Option (Client ρ) :=
  match c.calls[k]? with
  | none      => none
  | some call =>
    let calls := c.calls.set k { call with phase := .dropped }
    match call.phase with
    | .ready | .sleeping => some { c with calls }
    | .attempting i      =>
      some { c with calls, attempts := c.attempts.modify i ({ · with phase := .dropped }) }
    | _ => none

inductive Action (ρ : Type)
  | subscribed
  | subscribeFailed
  | take (env : Envelope)
  | inboxClosed
  | lookup (env : Envelope)
  | deliver (i : ℕ) (payload : Bytes)
  | request (targetNodeId method : String) (req : Except RpcError Bytes)
    (fromSlice : Bytes → Except RpcError ρ)
  | attempt (k : ℕ) (correlationId : String)
  | published (i : ℕ) (result : Except RpcError Unit) (hash : UInt64)
  | respond (i : ℕ)
  | timeout (i : ℕ) (hash : UInt64)
  | closed (i : ℕ)
  | wake (k : ℕ)
  | drop (k : ℕ)

def next (inner : Inner) (c : Client ρ) : Action ρ → Option (Client ρ)
  | .subscribed                                   => c.subscribed
  | .subscribeFailed                              => c.subscribeFailed
  | .take env                                     => c.take env
  | .inboxClosed                                  => c.inboxClosed
  | .lookup env                                   => c.lookup env
  | .deliver i payload                            => c.deliver i payload
  | .request targetNodeId method req fromSlice =>
    some <| c.request inner targetNodeId method req fromSlice
  | .attempt k correlationId                      => c.attempt inner k correlationId
  | .published i result hash                      => c.published inner i result hash
  | .respond i                                    => c.respond inner i
  | .timeout i hash                               => c.timeout inner i hash
  | .closed i                                     => c.closed inner i
  | .wake k                                       => c.wake inner k
  | .drop k                                       => c.drop k

def machine (ρ : Type) (inner : Inner) : Machine (Client ρ) (Action ρ) where
  init := .init inner
  next := next inner

end Client
end MomRpc
