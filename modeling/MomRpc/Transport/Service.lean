import MomRpc.Transport.Calls

namespace MomRpc

open RumqttcTransport

-- A transport whose methods hand their commands to an actor and await its answers, seen from the
-- callers' side. `gone` are the calls whose responders have been dropped, and `executes` tells that
-- the actor executes the command of the call in the step.
structure Service (S A : Type) where
  machine  : Machine S A
  caller   : Caller
  calls    : S → List MethodCall
  stopped  : S → Prop
  gone     : S → ℕ → Prop
  executes : S → A → ℕ → Prop
  cancel   : ℕ → A

-- The call awaits an answer that it has not been given.
def RumqttcTransport.MethodCall.Unanswered (c : MethodCall) : Prop :=
  c.phase = .awaiting ∧ c.reply = none

-- The answer lets a call of the method succeed.
def RumqttcTransport.Caller.Succeeds (caller : Caller) (method : Method)
    (reply : Except RpcError Ack) : Prop :=
  ∃ c : MethodCall, c.method = method ∧ (caller.receive c reply).phase = .returned (.ok ())

namespace Service

variable {S A : Type} (sv : Service S A)

-- Some continuation in which no caller gives up leads to a state with `P`.
def Leads (s : S) (P : S → Prop) : Prop :=
  sv.machine.Leads (fun a => ∀ i, a ≠ sv.cancel i) s P

def CanReturn (s : S) (i : ℕ) : Prop :=
  sv.Leads s fun t =>
    ∃ (c : MethodCall) (result : _), (sv.calls t)[i]? = some c ∧ c.phase = .returned result

-- The responder of the call can still be used or dropped.
def CanSettle (s : S) (i : ℕ) : Prop :=
  sv.Leads s fun t =>
    sv.gone t i ∨ ∃ c : MethodCall, (sv.calls t)[i]? = some c ∧ c.reply.isSome

def Executed (as : List A) (i : ℕ) : Prop :=
  ∃ xs a ys s, as = xs ++ a :: ys ∧ sv.machine.Run xs s ∧ sv.executes s a i

structure NoCallerLeft (as : List A) (s : S) : Prop where
  -- Once the actor has stopped, every call that has not been resolved is able to return.
  resolved : sv.stopped s → ∀ (i : ℕ) (c : MethodCall), (sv.calls s)[i]? = some c → c.active →
    sv.CanReturn s i
  executed : ∀ (i : ℕ) (c : MethodCall), (sv.calls s)[i]? = some c → c.method ≠ .close →
    c.phase = .returned (.ok ()) → sv.Executed as i
  -- Of the calls made after the actor has stopped, exactly those of `close` succeed.
  later    : ∀ xs ys t, as = xs ++ ys → sv.machine.Run xs t → sv.stopped t →
    ∀ (i : ℕ) (c : MethodCall) result, (sv.calls t).length ≤ i → (sv.calls s)[i]? = some c →
      c.phase = .returned result → (result = .ok () ↔ c.method = .close)
  waiting  : ∀ (i : ℕ) (c : MethodCall), (sv.calls s)[i]? = some c → c.Unanswered →
    sv.CanSettle s i

-- The laws of a service, in terms of the responders that its actor holds. `shut` tells that the
-- command channel is closed.
structure Lawful (shut : S → Prop) (responders : S → List ℕ) (own : A → Option ℕ)
    (begins : A → MethodCall → Prop)
    (replies : S → A → ℕ → Except RpcError Ack → Prop) : Prop where
  init    : sv.calls sv.machine.init = []
  step    : ∀ s a s', sv.machine.Reachable s → sv.machine.next s a = some s' →
    CallsStep sv.caller (shut s) (sv.gone s) (own a) (begins a) (replies s a) (sv.calls s)
      (responders s)
      (sv.calls s') (responders s')
  begins  : ∀ a c, begins a c → c.Asking ∧ c.reply = none
  owned   : ∀ s, sv.machine.Reachable s → Owned (sv.calls s) (responders s)
  told    : ∀ s a i result, sv.machine.Reachable s → replies s a i result → i ∈ responders s
  success : ∀ as s a s' i (c : MethodCall) result, sv.machine.Run as s →
    sv.machine.next s a = some s' → replies s a i result → (sv.calls s)[i]? = some c →
    c.method ≠ .close → sv.caller.Succeeds c.method result → sv.Executed (as ++ [a]) i
  stays   : ∀ s a s', sv.stopped s → sv.machine.next s a = some s' → sv.stopped s'
  dropped : ∀ s, sv.machine.Reachable s → sv.stopped s → responders s = []

-- How the calls of a service get on after its actor has stopped.
structure Returning : Prop where
  register     : ∀ s (i : ℕ) (c : MethodCall), sv.machine.Reachable s → sv.stopped s →
    (sv.calls s)[i]? = some c → c.phase = .registering →
    sv.Leads s fun t => (sv.calls t)[i]? = some { c with phase := .sending }
  send         : ∀ s (i : ℕ) (c : MethodCall), sv.machine.Reachable s → sv.stopped s →
    (sv.calls s)[i]? = some c → c.phase = .sending →
    sv.Leads s fun t => (sv.calls t)[i]? = some (sv.caller.closed c)
  receive      : ∀ s (i : ℕ) (c : MethodCall) reply, sv.machine.Reachable s → sv.stopped s →
    (sv.calls s)[i]? = some c → c.phase = .awaiting → c.reply = some reply →
    sv.Leads s fun t => (sv.calls t)[i]? = some (sv.caller.receive c reply)
  disconnected : ∀ s (i : ℕ) (c : MethodCall), sv.machine.Reachable s → sv.stopped s →
    (sv.calls s)[i]? = some c → c.Unanswered →
    sv.Leads s fun t => (sv.calls t)[i]? = some (sv.caller.disconnected c)
  retry        : ∀ s (i : ℕ) (c : MethodCall), sv.machine.Reachable s → sv.stopped s →
    (sv.calls s)[i]? = some c → c.phase = .delaying →
    sv.Leads s fun t => (sv.calls t)[i]? = some { c with phase := .sending }
  join         : ∀ s (i : ℕ) (c : MethodCall), sv.machine.Reachable s → sv.stopped s →
    (sv.calls s)[i]? = some c → c.method = .close → c.phase = .joining → sv.CanReturn s i

end Service
end MomRpc
