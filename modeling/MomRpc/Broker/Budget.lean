import Mathlib.Algebra.BigOperators.Group.List.Basic
import Mathlib.Algebra.Order.BigOperators.Group.List
import Mathlib.Tactic.Ring
import MomRpc.Broker.Client

namespace MomRpc

variable {D M ρ : Type} [Delays D M]

-- What the oneshot channel of an attempt brings and how long after the `publish` it does so: the
-- payload of the response, or `none` if its sender is dropped.
abbrev Reply (D : Type := Duration) := Option (D × Option Bytes)

-- What the attempts of a call meet with: the outcomes of their `publish`, what their channels bring
-- and the hashes for the jitter. The transports do not fail in a way that is to be retried.
structure Schedule (D : Type := Duration) where
  published : ℕ → Except RpcError Unit
  replies   : ℕ → Reply D
  hash      : ℕ → UInt64
  terminal  : ∀ n details, published n ≠ .error (.transportRetryable details)

-- The response is deserialized once the retries are over.
def Trace.decode (fromSlice : Bytes → Except RpcError ρ) (trace : Trace Bytes D) : Trace ρ D where
  operations := trace.operations
  sleeps     := trace.sleeps
  outcome    := trace.outcome.map (·.bind fromSlice)

namespace Inner

-- The response wait of `request_to_inner_with_timeout`: how long it takes and what comes of it.
def awaitResponse (inner : Inner D) (timeout : D) : Reply D → D × Except RpcError Bytes
  | some (delay, response) =>
    if Delays.secs delay ≤ Delays.secs timeout then
      (delay, response.elim (.error closedError) .ok)
    else
      (timeout, .error inner.timeoutError)
  | none => (timeout, .error inner.timeoutError)

-- The `n`-th attempt of a call.
def requestToInnerWithTimeout (inner : Inner D) (timeout : D) (schedule : Schedule D) (n : ℕ) :
    Except RpcError Bytes := do
  schedule.published n
  (inner.awaitResponse timeout (schedule.replies n)).snd

def requestToWithTimeout (inner : Inner D) (timeout : D) (req : Except RpcError Bytes)
    (fromSlice : Bytes → Except RpcError ρ) (schedule : Schedule D) : Trace ρ D :=
  if inner.mode.requests then
    match req with
    | .error err => { operations := 0, outcome := some (.error err) }
    | .ok _      =>
      let operation := inner.requestToInnerWithTimeout timeout schedule
      (retryWithBackoff inner.retryConfig operation schedule.hash).decode fromSlice
  else
    { operations := 0, outcome := some (.error notAllowed) }

def requestTo (inner : Inner D) (req : Except RpcError Bytes)
    (fromSlice : Bytes → Except RpcError ρ) (schedule : Schedule D) : Trace ρ D :=
  inner.requestToWithTimeout inner.requestTotalTimeout req fromSlice schedule

-- The timed wait of the `n`-th attempt, which only begins once its envelope is published.
def responseWait (inner : Inner D) (timeout : D) (schedule : Schedule D) (n : ℕ) : ℚ :=
  match schedule.published n with
  | .error _ => 0
  | .ok _    => Delays.secs (inner.awaitResponse timeout (schedule.replies n)).fst

-- The sum of all timed waits of a call whose first attempt is the `n`-th.
def waited (inner : Inner D) (timeout : D) (schedule : Schedule D) (n : ℕ) (trace : Trace ρ D) :
    ℚ :=
  ((List.range' n trace.operations).map (inner.responseWait timeout schedule)).sum +
    (trace.sleeps.map Delays.secs).sum

end Inner

-- The reply arrives before the response wait of its attempt is over.
def InTime {α : Type} (timeout : D) (reply : Option (D × α)) : Prop :=
  ∃ delay response, reply = some (delay, response) ∧ Delays.secs delay ≤ Delays.secs timeout

namespace Schedule

-- The `n`-th attempt is published and gets no response in time.
def Expires (timeout : D) (schedule : Schedule D) (n : ℕ) : Prop :=
  schedule.published n = .ok () ∧ ¬InTime timeout (schedule.replies n)

-- The `n`-th attempt has no time to wait for: it is not published, or its reply is there at once.
def EndsAtOnce (schedule : Schedule D) (n : ℕ) : Prop :=
  schedule.published n = .ok () →
    ∃ delay response, schedule.replies n = some (delay, response) ∧ Delays.secs delay = 0

end Schedule

namespace Inner

-- A call whose first attempt is the `n`-th ends with an attempt that gets no response in time.
def GivesUp (timeout : D) (schedule : Schedule D) (n : ℕ) (trace : Trace ρ D) : Prop :=
  ∃ last, n + trace.operations = last + 1 ∧ n ≤ last ∧ schedule.Expires timeout last

-- All waits of a call fit into its timeout, and if it gives up then its error is `Timeout`.
def WithinBudget (inner : Inner D) (timeout : D) (schedule : Schedule D) (trace : Trace ρ D) :
    Prop :=
  inner.waited timeout schedule 0 trace ≤ Delays.secs timeout ∧
    (GivesUp timeout schedule 0 trace → trace.outcome = some (.error .timeout))

end Inner
end MomRpc
