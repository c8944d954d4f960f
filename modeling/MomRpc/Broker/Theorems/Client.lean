import Mathlib.Data.List.Basic
import MomRpc.Broker.Client
import MomRpc.Lib.History

namespace MomRpc

namespace Attempt

variable {a : Attempt}

@[simp]
theorem live_publishing (h : a.phase = .publishing) : a.Live := by
  simp [Live, h]

@[simp]
theorem live_waiting (h : a.phase = .waiting) : a.Live := by
  simp [Live, h]

theorem live_iff : a.Live ↔ a.phase = .publishing ∨ a.phase = .waiting := by
  unfold Live
  split <;> simp_all

@[simp]
theorem send_call {payload : Bytes} : (a.send payload).call = a.call := by
  unfold send
  split <;> rfl

@[simp]
theorem send_correlationId {payload : Bytes} :
    (a.send payload).correlationId = a.correlationId := by
  unfold send
  split <;> rfl

@[simp]
theorem send_env {payload : Bytes} : (a.send payload).env = a.env := by
  unfold send
  split <;> rfl

@[simp]
theorem send_phase {payload : Bytes} : (a.send payload).phase = a.phase := by
  unfold send
  split <;> rfl

end Attempt

namespace Client

variable {ρ : Type} {inner : Inner} {c c' : Client ρ} {act : Action ρ}

-- The ways in which an attempt that waits for its response ends.
inductive Ends (inner : Inner) (c : Client ρ) (i : ℕ) (a : Attempt) :
    Action ρ → UInt64 → Except RpcError Bytes → Prop
  | publishError {err hash} (publishing : a.phase = .publishing) :
    Ends inner c i a (.published i (.error err) hash) hash (.error err)
  | respond {payload} (waiting : a.phase = .waiting) (response : a.response = some payload) :
    Ends inner c i a (.respond i) 0 (.ok payload)
  | timeout {hash} (waiting : a.phase = .waiting) (empty : a.response = none)
    (sender : c.HasSender i a) :
    Ends inner c i a (.timeout i hash) hash (.error inner.timeoutError)
  | closed (waiting : a.phase = .waiting) (empty : a.response = none)
    (noSender : ¬c.HasSender i a) :
    Ends inner c i a (.closed i) 0 (.error Inner.closedError)

theorem Ends.index {i j : ℕ} {a b : Attempt} {hash hash' : UInt64}
    {result result' : Except RpcError Bytes} (e : Ends inner c i a act hash result)
    (e' : Ends inner c j b act hash' result') : i = j := by
  cases e <;> cases e' <;> rfl

theorem Ends.live {i : ℕ} {a : Attempt} {hash : UInt64} {result : Except RpcError Bytes}
    (e : Ends inner c i a act hash result) : a.Live := by
  cases e <;> simp [*]

-- All that one action can do to a client.
inductive Step (inner : Inner) (c : Client ρ) : Action ρ → Client ρ → Prop
  | subscribed (starting : c.task = .starting) : Step inner c .subscribed { c with task := .idle }
  | subscribeFailed (starting : c.task = .starting) :
    Step inner c .subscribeFailed { c with task := .stopped }
  | take {env} (idle : c.task = .idle) : Step inner c (.take env) { c with task := .taken env }
  | inboxClosed (idle : c.task = .idle) : Step inner c .inboxClosed { c with task := .stopped }
  | ignore {env} (taken : c.task = .taken env)
    (unknown : ∀ correlationId, env.correlationId = some correlationId →
      c.pending correlationId = none) :
    Step inner c (.lookup env) { c with task := .idle }
  | lookup {env correlationId tx} (taken : c.task = .taken env)
    (carries : env.correlationId = some correlationId)
    (pending : c.pending correlationId = some tx) :
    Step inner c (.lookup env) { c with
      pending := Function.update c.pending correlationId none
      task    := .matched tx env.payload
    }
  | deliver {i payload} (matched : c.task = .matched i payload) :
    Step inner c (.deliver i payload) { c with
      attempts := c.attempts.modify i (·.send payload)
      task     := .idle
    }
  | request {targetNodeId method req fromSlice} {call : Call ρ}
    (phase : call.phase = .ready ∨ ∃ err, call.phase = .returned (.error err)) :
    Step inner c (.request targetNodeId method req fromSlice) { c with calls := c.calls ++ [call] }
  | attempt {k correlationId} {call : Call ρ} (handle : c.calls[k]? = some call)
    (ready : call.phase = .ready) (fresh : ∀ a ∈ c.attempts, a.correlationId ≠ correlationId) :
    Step inner c (.attempt k correlationId) { c with
      pending  := Function.update c.pending correlationId (some c.attempts.length)
      attempts := c.attempts ++ [{
        call          := k
        correlationId := correlationId
        env           :=
          inner.request call.targetNodeId call.method call.reqBytes correlationId
      }]
      calls    := c.calls.set k { call with phase := .attempting c.attempts.length }
    }
  | published {i hash a} (handle : c.attempts[i]? = some a) (publishing : a.phase = .publishing) :
    Step inner c (.published i (.ok ()) hash) { c with
      attempts := c.attempts.set i { a with phase := .waiting }
    }
  | ended {act i a hash result} (handle : c.attempts[i]? = some a)
    (ends : Ends inner c i a act hash result) :
    Step inner c act (c.conclude inner i a hash result)
  | wake {k call loop phase} (handle : c.calls[k]? = some call) (sleeping : call.phase = .sleeping)
    (awake : phase = .ready ∨ phase = .panicked) :
    Step inner c (.wake k) { c with calls := c.calls.set k { call with loop, phase } }
  | dropIdle {k call} (handle : c.calls[k]? = some call)
    (idle : call.phase = .ready ∨ call.phase = .sleeping) :
    Step inner c (.drop k) { c with calls := c.calls.set k { call with phase := .dropped } }
  | dropAttempting {k i call} (handle : c.calls[k]? = some call)
    (attempting : call.phase = .attempting i) :
    Step inner c (.drop k) { c with
      calls    := c.calls.set k { call with phase := .dropped }
      attempts := c.attempts.modify i ({ · with phase := .dropped })
    }

theorem next_step (h : (machine ρ inner).next c act = some c') : Step inner c act c' := by
  cases act <;> simp only [machine, next] at h
  case subscribed =>
    simp only [Client.subscribed] at h
    split at h <;> cases h
    exact .subscribed ‹_›
  case subscribeFailed =>
    simp only [Client.subscribeFailed] at h
    split at h <;> cases h
    exact .subscribeFailed ‹_›
  case take env =>
    simp only [Client.take] at h
    split at h <;> cases h
    exact .take ‹_›
  case inboxClosed =>
    simp only [Client.inboxClosed] at h
    split at h <;> cases h
    exact .inboxClosed ‹_›
  case lookup env =>
    simp only [Client.lookup] at h
    split at h <;> try cases h
    case _ env' taken =>
      split at h <;> try cases h
      case _ he =>
        subst he
        split at h
        case _ hc => cases h; exact .ignore taken (by simp [hc])
        case _ correlationId hc =>
          split at h <;> cases h
          case _ hp => exact .ignore taken (by simp [hc, hp])
          case _ tx hp => exact .lookup taken hc hp
  case deliver i payload =>
    simp only [Client.deliver] at h
    split at h <;> try cases h
    case _ tx payload' matched =>
      simp only [Option.ite_none_right_eq_some, Option.some.injEq] at h
      obtain ⟨⟨rfl, rfl⟩, rfl⟩ := h
      exact .deliver matched
  case request targetNodeId method req fromSlice =>
    cases h
    refine .request ?_
    cases inner.mode.requests <;> cases req <;> simp
  case attempt k correlationId =>
    simp only [Client.attempt] at h
    split at h <;> try cases h
    case _ call handle =>
      split at h <;> try cases h
      case _ ready =>
        simp only [Option.ite_none_right_eq_some, Option.some.injEq] at h
        obtain ⟨fresh, rfl⟩ := h
        exact .attempt handle ready fresh
  case published i result hash =>
    simp only [Client.published] at h
    split at h <;> try cases h
    case _ a handle =>
      split at h <;> try cases h
      case _ publishing =>
        split at h <;> cases h
        · exact .published handle publishing
        · exact .ended handle (.publishError publishing)
  case respond i =>
    simp only [Client.respond] at h
    split at h <;> try cases h
    case _ a handle =>
      split at h <;> cases h
      exact .ended handle (.respond ‹_› ‹_›)
  case timeout i hash =>
    simp only [Client.timeout] at h
    split at h <;> try cases h
    case _ a handle =>
      split at h <;> try cases h
      simp only [Option.ite_none_right_eq_some, Option.some.injEq] at h
      obtain ⟨sender, rfl⟩ := h
      exact .ended handle (.timeout ‹_› ‹_› sender)
  case closed i =>
    simp only [Client.closed] at h
    split at h <;> try cases h
    case _ a handle =>
      split at h <;> try cases h
      simp only [Option.ite_none_left_eq_some, Option.some.injEq] at h
      obtain ⟨noSender, rfl⟩ := h
      exact .ended handle (.closed ‹_› ‹_› noSender)
  case wake k =>
    simp only [Client.wake] at h
    split at h <;> try cases h
    case _ call handle =>
      split at h <;> cases h
      split
      · exact .wake handle ‹_› (.inr rfl)
      · exact .wake handle ‹_› (.inl rfl)
  case drop k =>
    simp only [Client.drop] at h
    split at h <;> try cases h
    case _ call handle =>
      split at h <;> cases h
      · exact .dropIdle handle (.inl ‹_›)
      · exact .dropIdle handle (.inr ‹_›)
      · exact .dropAttempting handle ‹_›

-- What an action can do to the `i`-th attempt.
inductive Change (inner : Inner) (c : Client ρ) (act : Action ρ) (i : ℕ) (a : Attempt) :
    Attempt → Prop
  | same : Change inner c act i a a
  | send {payload} (deliver : act = .deliver i payload) : Change inner c act i a (a.send payload)
  | await (publishing : a.phase = .publishing) : Change inner c act i a { a with phase := .waiting }
  | ended {hash result} (ends : Ends inner c i a act hash result) :
    Change inner c act i a { a with phase := .ended result }
  | drop {k : ℕ} {call : Call ρ} (drop : act = .drop k) (handle : c.calls[k]? = some call)
    (attempting : call.phase = .attempting i) :
    Change inner c act i a { a with phase := .dropped }

namespace Change

variable {i : ℕ} {a a' : Attempt}

theorem correlationId (ch : Change inner c act i a a') : a'.correlationId = a.correlationId := by
  cases ch <;> simp

theorem call (ch : Change inner c act i a a') : a'.call = a.call := by
  cases ch <;> simp

theorem env (ch : Change inner c act i a a') : a'.env = a.env := by
  cases ch <;> simp

theorem live (ch : Change inner c act i a a') (h : a'.Live) : a.Live := by
  cases ch
  case same           => exact h
  case send           => simpa [Attempt.live_iff] using h
  case await hp       => simp [hp]
  case ended he       => exact he.live
  case drop           => simp [Attempt.Live] at h

theorem response (ch : Change inner c act i a a') (h : ∀ p, act ≠ .deliver i p) :
    a'.response = a.response := by
  cases ch <;> first | rfl | exact absurd ‹_› (h _)

end Change

theorem Step.change {i : ℕ} {a : Attempt} (st : Step inner c act c')
    (h : c.attempts[i]? = some a) :
    ∃ a', c'.attempts[i]? = some a' ∧ Change inner c act i a a' := by
  have ⟨hl, _⟩ := List.getElem?_eq_some_iff.mp h
  cases st <;> try exact ⟨a, h, .same⟩
  case deliver j payload matched =>
    by_cases hj : j = i
    case pos =>
      subst hj
      exact ⟨a.send payload, by simp [h], .send rfl⟩
    case neg => exact ⟨a, by simp [hj, h], .same⟩
  case attempt => exact ⟨a, by rwa [List.getElem?_append_left hl], .same⟩
  case published handle publishing =>
    exact List.getElem?_set_related handle h (fun hj => hj ▸ .await publishing) fun _ => .same
  case ended handle ends =>
    exact List.getElem?_set_related handle h (fun hj => hj ▸ .ended ends) fun _ => .same
  case dropAttempting k j call handle attempting =>
    by_cases hj : j = i
    case pos =>
      subst hj
      exact ⟨_, by simp [h], .drop rfl handle attempting⟩
    case neg => exact ⟨a, by simp [hj, h], .same⟩

theorem Step.starting (st : Step inner c act c') (h : c'.task = .starting) :
    c.task = .starting ∧ act ≠ .subscribed := by
  cases st <;> simp_all [conclude]
  case ended ends => cases ends <;> simp

def Action.isAttempt : Action ρ → Bool
  | attempt _ _ => true
  | _           => false

theorem Step.attempts_length (st : Step inner c act c') :
    c'.attempts.length = c.attempts.length + if act.isAttempt then 1 else 0 := by
  cases st <;> simp [Action.isAttempt, conclude]
  case ended ends => cases ends <;> simp

-- An attempt is either an earlier one or the one that has just been started.
theorem Step.change_or_attempt {i : ℕ} {a' : Attempt} (st : Step inner c act c')
    (h : c'.attempts[i]? = some a') :
    (∃ a, c.attempts[i]? = some a ∧ Change inner c act i a a') ∨
      (i = c.attempts.length ∧ act = .attempt a'.call a'.correlationId ∧
        a'.phase = .publishing ∧ a'.response = none ∧
        ∀ b ∈ c.attempts, b.correlationId ≠ a'.correlationId) := by
  by_cases hl : i < c.attempts.length
  case pos =>
    have ⟨b, hb, ch⟩ := st.change (List.getElem?_eq_getElem hl)
    cases hb ▸ h
    exact .inl ⟨_, List.getElem?_eq_getElem hl, ch⟩
  case neg =>
    have ⟨hl', _⟩ := List.getElem?_eq_some_iff.mp h
    rw [st.attempts_length] at hl'
    cases act <;> simp only [Action.isAttempt, Bool.false_eq_true, ↓reduceIte] at hl' <;> try omega
    obtain rfl : i = c.attempts.length := by omega
    cases st
    case ended ends _ => cases ends
    case attempt handle ready fresh _ =>
      simp at h
      subst h
      exact .inr ⟨rfl, rfl, rfl, rfl, fresh⟩

end Client
end MomRpc
