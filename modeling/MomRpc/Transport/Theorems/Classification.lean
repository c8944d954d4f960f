import MomRpc.Retry.Theorems.Loop
import MomRpc.Transport.Amqp
import MomRpc.Transport.Redis
import MomRpc.Transport.Theorems.ActorCalls
import MomRpc.Transport.Theorems.MqttCalls

namespace MomRpc

namespace RumqttcTransport

variable {caller : Caller} {shut gone owns : Prop} {c c' : MethodCall} {err : RpcError}
  {replies : Except RpcError Ack → Prop}

-- The errors that a call has been given or has returned are not retryable.
def MethodCall.Terminal (c : MethodCall) : Prop :=
  (∀ reply, c.reply = some reply → ¬Retryable reply) ∧
    ∀ result, c.phase = .returned result → ¬Retryable result

-- The calls themselves do not make an error retryable.
structure Caller.Terminal (caller : Caller) : Prop where
  closed       : ∀ c result, (caller.closed c).phase = .returned result → ¬Retryable result
  receive      : ∀ c reply result, (caller.receive c reply).phase = .returned result →
    ¬Retryable reply → ¬Retryable result
  disconnected : ∀ c result, (caller.disconnected c).phase = .returned result → ¬Retryable result

theorem terminal_caller : RumqttcTransport.caller.Terminal where
  closed c result h := by
    simp only [RumqttcTransport.caller, MethodCall.closed] at h
    rintro ⟨details, rfl⟩
    split at h <;> cases h
  receive c reply result h terminal := by
    simp only [RumqttcTransport.caller, MethodCall.receive] at h
    rintro ⟨details, rfl⟩
    split at h <;> cases h
    exact terminal ⟨_, rfl⟩
  disconnected c result h := by
    simp only [RumqttcTransport.caller, MethodCall.disconnected] at h
    rintro ⟨details, rfl⟩
    split at h <;> cases h

theorem Caller.closed_reply (caller : Caller) (c : MethodCall) :
    (caller.closed c).reply = c.reply := by
  rcases caller.closed_cases c with ⟨_, _, he⟩ | ⟨_, he⟩ <;> rw [he]

theorem Caller.disconnected_reply (caller : Caller) (c : MethodCall) :
    (caller.disconnected c).reply = c.reply := by
  rcases caller.disconnected_cases c with ⟨_, _, he⟩ | ⟨_, he⟩ <;> rw [he]

theorem Caller.receive_reply (caller : Caller) (c : MethodCall) (reply : Except RpcError Ack) :
    (caller.receive c reply).reply = c.reply ∨ (caller.receive c reply).reply = none := by
  rcases caller.receive_cases c reply with ⟨_, _, he⟩ | ⟨_, _, he⟩ | ⟨_, he⟩ <;> simp [he]

theorem CallStep.terminal (tc : caller.Terminal) (st : CallStep caller shut gone c c')
    (h : c.Terminal) : c'.Terminal := by
  have ⟨reply, returned⟩ := h
  cases st
  case await                      => exact h
  case register | retry | cancel  => exact ⟨reply, by simp⟩
  case joined                     =>
    refine ⟨reply, ?_⟩
    rintro _ hp ⟨_, rfl⟩
    cases hp
  case closed                     => exact ⟨caller.closed_reply c ▸ reply, tc.closed c⟩
  case disconnected               => exact ⟨caller.disconnected_reply c ▸ reply, tc.disconnected c⟩
  case receive answer _ answered  =>
    refine ⟨?_, fun result hp => tc.receive c answer result hp <| reply answer answered⟩
    rcases caller.receive_reply c answer with he | he <;> rw [he]
    · exact reply
    · simp

theorem CallChange.terminal (tc : caller.Terminal)
    (ch : CallChange caller shut gone owns replies c c')
    (told : ∀ reply, replies reply → ¬Retryable reply) (h : c.Terminal) : c'.Terminal := by
  cases ch
  case same           => exact h
  case step st        => exact st.terminal tc h
  case send           => exact ⟨h.left, by simp⟩
  case reply result r =>
    refine ⟨fun reply hr => ?_, h.right⟩
    obtain rfl : result = reply := by simpa using hr
    exact told result r

end RumqttcTransport

open RumqttcTransport

section Actors

variable {ι σ α τ : Type} {kind : ActorKind ι σ α τ} {m : Actor kind} {i : ℕ} {c : MethodCall}

-- No call ever fails with a retryable error if no command does.
theorem Actor.terminal (tc : kind.caller.Terminal)
    (executed : ∀ s cmd outcome s' result, kind.execute s cmd outcome = some (s', result) →
      ¬Retryable result)
    (r : (Actor.machine kind).Reachable m) (h : m.calls[i]? = some c) : c.Terminal := by
  induction m, r using Machine.Reachable.induction_on generalizing i c
  case init => simp [Actor.machine] at h
  case step m act m' r hn ih =>
    rcases (Actor.next_step hn).change h with ⟨c₀, h₀, ch⟩ | ⟨_, begun⟩
    case inr => cases begun <;> exact ⟨by simp, by simp⟩
    case inl =>
      refine CallChange.terminal tc ch (fun reply told => ?_) (ih h₀)
      rintro ⟨details, he⟩
      cases told
      case close | defer => cases he
      case execute result _ _ _ ex =>
        cases result <;> cases he
        exact executed _ _ _ _ _ ex ⟨_, rfl⟩

end Actors

theorem failed_not_retryable {β : Type} {outcome : Except String β} {text : String → String} :
    ¬Retryable (outcome.mapError fun err => RpcError.transport (text err)) := by
  rintro ⟨_, h⟩
  cases outcome <;> cases h

theorem RedisActor.terminal (redis : Redis) {m : Actor (kind redis)} {i : ℕ} {c : MethodCall}
    (r : (Actor.machine (kind redis)).Reachable m) (h : m.calls[i]? = some c) : c.Terminal := by
  refine Actor.terminal terminal_caller (fun s cmd outcome s' result executed => ?_) r h
  cases cmd <;> cases executed
  case publish   => exact fun ⟨_, he⟩ => handlePublish_ne_retryable redis _ _ _ he
  case subscribe => exact failed_not_retryable

theorem AmqpActor.terminal (amqp : Amqp) {m : Actor (kind amqp)} {i : ℕ} {c : MethodCall}
    (r : (Actor.machine (kind amqp)).Reachable m) (h : m.calls[i]? = some c) : c.Terminal := by
  refine Actor.terminal terminal_caller (fun s cmd outcome s' result executed => ?_) r h
  have executed : s.execute amqp cmd outcome = some (s', result) := executed
  simp only [execute] at executed
  split at executed
  case h_3 => cases executed
  case h_1 =>
    split at executed <;> cases executed
    exact fun ⟨_, he⟩ => doPublish_ne_retryable amqp _ _ _ he
  case h_2 declared consumed =>
    simp only [doSubscribe] at executed
    rintro ⟨details, rfl⟩
    split at executed <;> try cases executed
    split at executed <;> try cases executed
    split at executed <;> try cases executed
    obtain ⟨⟨_, answer⟩, _, he⟩ := Option.map_eq_some_iff.mp executed
    cases answer <;> cases he

theorem MqttActor.terminal {rumqttc : Rumqttc} {m : MqttActor} {i : ℕ} {c : MethodCall}
    (r : (machine rumqttc).Reachable m) (h : m.calls[i]? = some c) : c.Terminal := by
  induction m, r using Machine.Reachable.induction_on generalizing i c
  case init => simp [machine] at h
  case step m act m' r hn ih =>
    rcases (next_step hn).change r h with ⟨c₀, h₀, ch⟩ | ⟨_, _, _, rfl⟩
    case inr => exact ⟨by simp, by simp⟩
    case inl =>
      refine RumqttcTransport.CallChange.terminal terminal_caller ch (fun reply told => ?_) (ih h₀)
      rintro ⟨details, rfl⟩
      generalize he : (.error (.transportRetryable details) : Except RpcError Ack) = reply at told
      cases told
      case publish | close => cases he
      case refused refusal => cases refusal <;> cases he
      case suback codes topic _ _ =>
        simp only [subackResult] at he
        split at he <;> cases he

end MomRpc
