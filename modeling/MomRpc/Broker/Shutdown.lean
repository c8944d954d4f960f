import MomRpc.Broker.Client
import MomRpc.Lib.Oneshot

namespace MomRpc

-- A call of `run` has consumed its clone. It is made when its future is first polled: nothing of
-- its body happens before that.
inductive RunCall
  | waiting
  | returned (result : Except RpcError Unit)
  | dropped

-- How far a call of `shutdown` has come: up to its signal, or up to the transport's `close`.
inductive ShutdownCall.Phase
  | called
  | closing
  | returned
  | dropped
  deriving DecidableEq

structure ShutdownCall where
  clone : ℕ
  phase : ShutdownCall.Phase := .called

-- What the clones of a broker share to shut down, with the calls made on them. `clones` tells which
-- clones still exist, `shutdownTx` and `shutdownRx` whether their mutexes still hold the halves of
-- the channel.
structure RpcBroker where
  shutdownTx : Bool              := true
  shutdownRx : Bool              := true
  channel    : Oneshot Unit      := {}
  clones     : List Bool         := [true]
  runs       : List RunCall      := []
  shutdowns  : List ShutdownCall := []

def RunCall.Active : RunCall → Prop
  | waiting => True
  | _       => False

def ShutdownCall.Active (c : ShutdownCall) : Prop :=
  c.phase = .called ∨ c.phase = .closing

instance {c : RunCall} : Decidable c.Active := by
  cases c <;> unfold RunCall.Active <;> infer_instance

instance {c : ShutdownCall} : Decidable c.Active :=
  inferInstanceAs (Decidable (_ ∨ _))

namespace RpcBroker

variable {s s' : RpcBroker} {b k : ℕ}

-- Whether one of the references to the shared `Inner` is left.
def Shared (s : RpcBroker) : Prop :=
  true ∈ s.clones ∨ ∃ c ∈ s.runs, c.Active

instance : Decidable s.Shared :=
  inferInstanceAs (Decidable (_ ∨ _))

-- A reference to `Inner` has been dropped, with the last one `Inner` is dropped as well.
def release (s : RpcBroker) : RpcBroker :=
  if s.Shared then
    s
  else
    { s with
      shutdownTx := false
      shutdownRx := false
      channel    := s.channel.dropSender.dropReceiver }

def Holds (s : RpcBroker) (b : ℕ) : Prop :=
  s.clones[b]? = some true

-- A clone that is borrowed by a call of `shutdown` can be neither moved nor dropped.
def Owns (s : RpcBroker) (b : ℕ) : Prop :=
  s.Holds b ∧ ∀ c ∈ s.shutdowns, c.Active → c.clone ≠ b

instance : Decidable (s.Holds b) :=
  inferInstanceAs (Decidable (_ = _))

instance : Decidable (s.Owns b) :=
  inferInstanceAs (Decidable (_ ∧ _))

def notAllowed : RpcError :=
  .invalidMode "run() not allowed in Client mode"

-- The first poll of a call of `run`, up to its `await`.
def run (inner : Inner) (s : RpcBroker) : RpcBroker :=
  if inner.mode.serves then
    if s.shutdownRx then
      { s with shutdownRx := false, runs := s.runs ++ [.waiting] }
    else
      { s with runs := s.runs ++ [RunCall.returned <| .ok ()] }.release
  else
    { s with runs := s.runs ++ [RunCall.returned <| .error notAllowed] }.release

-- The receiver is dropped together with the call that has taken it.
def leave (s : RpcBroker) (k : ℕ) (c : RunCall) : RpcBroker :=
  { s with channel := s.channel.dropReceiver, runs := s.runs.set k c }.release

-- The sender is taken and used while its mutex is locked.
def signal (s : RpcBroker) : RpcBroker :=
  if s.shutdownTx then { s with shutdownTx := false, channel := s.channel.send () } else s

-- `closed` is the end of a call's `transport.close()`, `dropRun` and `dropShutdown` drop the future
-- of a call at its `await`.
inductive Action
  | clone (b : ℕ)
  | drop (b : ℕ)
  | run (b : ℕ)
  | wake (k : ℕ)
  | dropRun (k : ℕ)
  | shutdown (b : ℕ)
  | signal (k : ℕ)
  | closed (k : ℕ)
  | dropShutdown (k : ℕ)
  deriving DecidableEq

def next (inner : Inner) (s : RpcBroker) : Action → Option RpcBroker
  | .clone b =>
    if s.Holds b then some { s with clones := s.clones ++ [true] } else none
  | .drop b =>
    if s.Owns b then some { s with clones := s.clones.set b false }.release else none
  | .run b =>
    if s.Owns b then some <| { s with clones := s.clones.set b false }.run inner else none
  | .wake k =>
    match s.runs[k]?, s.channel.recv with
    | some .waiting, some _ => some <| s.leave k <| .returned <| .ok ()
    | _, _                  => none
  | .dropRun k =>
    match s.runs[k]? with
    | some .waiting => some <| s.leave k .dropped
    | _             => none
  | .shutdown b =>
    if s.Holds b then some { s with shutdowns := s.shutdowns ++ [{ clone := b }] } else none
  | .signal k =>
    match s.shutdowns[k]? with
    | some ⟨b, .called⟩ => some { s.signal with shutdowns := s.shutdowns.set k ⟨b, .closing⟩ }
    | _                 => none
  | .closed k =>
    match s.shutdowns[k]? with
    | some ⟨b, .closing⟩ => some { s with shutdowns := s.shutdowns.set k ⟨b, .returned⟩ }
    | _                  => none
  | .dropShutdown k =>
    match s.shutdowns[k]? with
    | some ⟨b, .closing⟩ => some { s with shutdowns := s.shutdowns.set k ⟨b, .dropped⟩ }
    | _                  => none

def machine (inner : Inner) : Machine RpcBroker Action where
  init := {}
  next := next inner

end RpcBroker

end MomRpc
