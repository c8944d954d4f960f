import MomRpc.Broker.Theorems.Client

namespace MomRpc

namespace Call

variable {ρ : Type} {inner : Inner} {call : Call ρ} {hash : UInt64} {result : Except RpcError Bytes}

@[simp]
theorem resolve_fromSlice : (call.resolve inner hash result).fromSlice = call.fromSlice := by
  unfold resolve
  repeat' split
  all_goals rfl

-- The envelope that an attempt of the call publishes.
def request (inner : Inner) (call : Call ρ) (correlationId : String) : Envelope :=
  inner.request call.targetNodeId call.method call.reqBytes correlationId

@[simp]
theorem resolve_request {inner' : Inner} {id : String} :
    (call.resolve inner hash result).request inner' id = call.request inner' id := by
  unfold resolve
  repeat' split
  all_goals rfl

theorem resolve_ne_attempting {i : ℕ} : (call.resolve inner hash result).phase ≠ .attempting i := by
  unfold resolve
  repeat' split
  all_goals simp [finish]

theorem finish_ok {v : ρ} (h : (call.finish result).phase = .returned (.ok v)) :
    ∃ p, result = .ok p ∧ call.fromSlice p = .ok v := by
  simp only [finish, Call.Phase.returned.injEq] at h
  cases result
  case error => cases h
  case ok p  => exact ⟨p, rfl, h⟩

-- A call only returns what its last attempt has brought.
theorem resolve_ok {v : ρ} (h : (call.resolve inner hash result).phase = .returned (.ok v)) :
    ∃ p, result = .ok p ∧ call.fromSlice p = .ok v := by
  unfold resolve at h
  split at h
  case h_2 => exact finish_ok h
  case h_1 cfg loop _ _ =>
    have body := RetryLoop.onResult_body cfg loop hash result
    split at h
    case h_2 | h_3 => simp at h
    case h_1 hr =>
      have ⟨p, hp, hv⟩ := finish_ok h
      cases hr ▸ body
      case finish => exact ⟨p, hp, hv⟩
      case exhaust => cases hp

end Call

namespace Client

variable {ρ : Type} {inner : Inner} {c c' : Client ρ} {act : Action ρ} {i k : ℕ} {a : Attempt}
  {call : Call ρ}

theorem Step.call_request (st : Step inner c act c') (h : c.calls[k]? = some call) :
    ∃ call', c'.calls[k]? = some call' ∧
      ∀ inner id, call'.request inner id = call.request inner id := by
  have ⟨hl, _⟩ := List.getElem?_eq_some_iff.mp h
  have set {k' call₁} {call₂ : Call ρ} (handle : c.calls[k']? = some call₁)
      (hr : ∀ inner id, call₂.request inner id = call₁.request inner id) :
      ∃ call', (c.calls.set k' call₂)[k]? = some call' ∧
        ∀ inner id, call'.request inner id = call.request inner id :=
    List.getElem?_set_related
      (R := fun call call' => ∀ inner id, call'.request inner id = call.request inner id)
      handle h (fun _ => hr) fun _ _ _ => rfl
  cases st <;> try exact ⟨call, h, fun _ _ => rfl⟩
  case request        => exact ⟨call, by rwa [List.getElem?_append_left hl], fun _ _ => rfl⟩
  case attempt handle _ _      => exact set handle fun _ _ => rfl
  case wake handle _ _         => exact set handle fun _ _ => rfl
  case dropIdle handle _       => exact set handle fun _ _ => rfl
  case dropAttempting handle _ => exact set handle fun _ _ => rfl
  case ended i a hash result handle ends =>
    by_cases hk : a.call = k
    case pos =>
      subst hk
      exact ⟨call.resolve inner hash result, by simp [conclude, h], by simp⟩
    case neg => exact ⟨call, by simpa [conclude, hk] using h, fun _ _ => rfl⟩

-- What an attempt publishes is the request of its call.
theorem env_eq_request (r : (machine ρ inner).Reachable c) (h : c.attempts[i]? = some a) :
    ∃ call, c.calls[a.call]? = some call ∧ a.env = call.request inner a.correlationId := by
  induction c, r using Machine.Reachable.induction_on generalizing a i
  case init => simp [machine, init] at h
  case step c act c' r hs ih =>
    have st := next_step hs
    rcases st.change_or_attempt h with ⟨b, hb, ch⟩ | ⟨rfl, rfl, -⟩
    case inl =>
      obtain ⟨call, hc, he⟩ := ih hb
      obtain ⟨call', hc', hr⟩ := st.call_request hc
      rw [ch.call, ch.correlationId, ch.env, he, ← hr]
      exact ⟨call', hc', rfl⟩
    case inr =>
      cases st
      case ended ends => cases ends
      case attempt handle _ =>
        obtain ⟨hl, _⟩ := List.getElem?_eq_some_iff.mp handle
        simp only [List.getElem?_concat_length, Option.some.injEq] at h
        exact ⟨_, List.getElem?_set_self hl, congrArg Attempt.env h.symm⟩

-- The call that an attempt which is not over belongs to awaits this attempt.
theorem attempting_of_live (r : (machine ρ inner).Reachable c) (h : c.attempts[i]? = some a)
    (live : a.Live) : ∃ call, c.calls[a.call]? = some call ∧ call.phase = .attempting i := by
  induction c, r using Machine.Reachable.induction_on generalizing a i
  case init => simp [machine, init] at h
  case step c act c' r hs ih =>
    have st := next_step hs
    rcases st.change_or_attempt h with ⟨b, hb, ch⟩ | ⟨rfl, rfl, -⟩
    case inr =>
      cases st
      case ended ends => cases ends
      case attempt handle _ =>
        obtain ⟨hl, _⟩ := List.getElem?_eq_some_iff.mp handle
        exact ⟨_, List.getElem?_set_self hl, rfl⟩
    case inl =>
      obtain ⟨call, hc, ha⟩ := ih hb (ch.live live)
      rw [ch.call]
      have other {k call'} (hk : k ≠ b.call) :
          ∃ call, (c.calls.set k call')[b.call]? = some call ∧ call.phase = .attempting i :=
        ⟨call, (List.getElem?_set_ne hk).trans hc, ha⟩
      cases st <;> try exact ⟨call, hc, ha⟩
      case request =>
        obtain ⟨hl, _⟩ := List.getElem?_eq_some_iff.mp hc
        exact ⟨call, by rwa [List.getElem?_append_left hl], ha⟩
      case attempt | wake | dropIdle =>
        apply other
        rintro rfl
        simp_all
      case dropAttempting k j call' handle attempting =>
        apply other
        rintro rfl
        obtain rfl : j = i := by simp_all
        simp [hb] at h
        simp [← h, Attempt.Live] at live
      case ended j d hash result handle ends =>
        have hk : d.call ≠ b.call := by
          intro hd
          obtain ⟨call', hc', ha'⟩ := ih handle ends.live
          obtain rfl : j = i := by simp_all
          obtain ⟨hl, _⟩ := List.getElem?_eq_some_iff.mp hb
          simp only [conclude, List.getElem?_set_self hl, Option.some.injEq] at h
          simp [← h, Attempt.Live] at live
        exact ⟨call, by simpa [conclude, hk] using hc, ha⟩

theorem live_of_attempting (r : (machine ρ inner).Reachable c) (h : c.calls[k]? = some call)
    (ha : call.phase = .attempting i) :
    ∃ a, c.attempts[i]? = some a ∧ a.call = k ∧ a.Live := by
  induction c, r using Machine.Reachable.induction_on generalizing k call i
  case init => simp [machine, init] at h
  case step c act c' r hs ih =>
    have st := next_step hs
    have keep (hc : c.calls[k]? = some call)
        (he : ∀ a hash result, Ends inner c i a act hash result → c.attempts[i]? = some a →
          a.call ≠ k)
        (hd : act ≠ .drop k) : ∃ a, c'.attempts[i]? = some a ∧ a.call = k ∧ a.Live := by
      obtain ⟨a, ha, hk, live⟩ := ih hc ha
      obtain ⟨a', ha', ch⟩ := st.change ha
      refine ⟨a', ha', ch.call.trans hk, ?_⟩
      cases ch
      case same       => exact live
      case send       => simpa [Attempt.live_iff] using live
      case await      => exact Attempt.live_waiting rfl
      case ended ends => exact absurd hk (he a _ _ ends ha)
      case drop k' call' drop handle attempting =>
        obtain ⟨b, hb, hk', _⟩ := ih handle attempting
        cases ha.symm.trans hb
        exact absurd (hk ▸ hk' ▸ drop) hd
    cases st
    case subscribed | subscribeFailed | take | inboxClosed | ignore | lookup | deliver |
        published =>
      exact keep h (by rintro _ _ _ ⟨⟩) (by simp)
    case request call' phase =>
      by_cases hl : k < c.calls.length
      case pos =>
        exact keep (by rwa [List.getElem?_append_left hl] at h) (by rintro _ _ _ ⟨⟩) (by simp)
      case neg =>
        obtain ⟨_, rfl⟩ := by simpa [List.getElem?_append, hl, List.getElem?_singleton] using h
        rcases phase with hp | ⟨_, hp⟩ <;> simp [hp] at ha
    case attempt =>
      rcases List.getElem?_set_cases h with ⟨rfl, rfl⟩ | ⟨_, h⟩
      · cases ha
        exact ⟨_, List.getElem?_concat_length, rfl, Attempt.live_publishing rfl⟩
      · exact keep h (by rintro _ _ _ ⟨⟩) (by simp)
    case ended j b hash result handle ends =>
      by_cases hk : b.call = k
      case pos =>
        obtain ⟨_, _, rfl⟩ := by simpa [conclude, hk] using h
        exact absurd ha Call.resolve_ne_attempting
      case neg =>
        refine keep (by simpa [conclude, hk] using h) (fun a _ _ he hi => ?_) ?_
        · cases he.index ends
          cases handle.symm.trans hi
          exact hk
        · rintro rfl
          cases ends
    case wake awake =>
      rcases List.getElem?_set_cases h with ⟨_, rfl⟩ | ⟨_, h⟩
      · rcases awake with rfl | rfl <;> simp at ha
      · exact keep h (by rintro _ _ _ ⟨⟩) (by simp)
    case dropIdle | dropAttempting =>
      rcases List.getElem?_set_cases h with ⟨_, rfl⟩ | ⟨hk, h⟩
      · cases ha
      · exact keep h (by rintro _ _ _ ⟨⟩) (by simp [hk.symm])

theorem Step.ended_stable {a' : Attempt} {result : Except RpcError Bytes}
    (st : Step inner c act c') (r : (machine ρ inner).Reachable c) (h : c.attempts[i]? = some a)
    (he : a.phase = .ended result) (h' : c'.attempts[i]? = some a') : a'.phase = .ended result := by
  obtain ⟨_, h'', ch⟩ := st.change h
  cases h''.symm.trans h'
  cases ch
  case same => exact he
  case send => simpa using he
  case await hp => simp [he] at hp
  case ended ends => have := ends.live; simp [Attempt.Live, he] at this
  case drop k call _ handle attempting =>
    obtain ⟨b, hb, _, live⟩ := live_of_attempting r handle attempting
    cases h.symm.trans hb
    simp [Attempt.Live, he] at live

-- The `i`-th attempt is the latest one of the `k`-th call.
def Latest (c : Client ρ) (k i : ℕ) : Prop :=
  ∀ j b, c.attempts[j]? = some b → b.call = k → j ≤ i

def Settled (c : Client ρ) (k : ℕ) (call : Call ρ) : Prop :=
  match call.phase with
  | .attempting i      => ∃ a, c.attempts[i]? = some a ∧ a.call = k ∧ c.Latest k i
  | .returned (.ok v) =>
    ∃ i a p, c.attempts[i]? = some a ∧ a.call = k ∧ a.phase = .ended (.ok p) ∧
      call.fromSlice p = .ok v ∧ c.Latest k i
  | _ => True

theorem Step.latest (st : Step inner c act c') (hn : ∀ id, act ≠ .attempt k id)
    (h : c.Latest k i) : c'.Latest k i := by
  intro j b hb hk
  rcases st.change_or_attempt hb with ⟨b', hb', ch⟩ | ⟨_, rfl, -⟩
  · exact h j b' hb' (ch.call.symm.trans hk)
  · exact absurd (hk ▸ rfl) (hn b.correlationId)

theorem Settled.step (h : Settled c k call) (r : (machine ρ inner).Reachable c)
    (st : Step inner c act c') (hn : ∀ id, act ≠ .attempt k id) : Settled c' k call := by
  unfold Settled at h ⊢
  split at h
  case h_1 =>
    have ⟨a, ha, hk, hl⟩ := h
    have ⟨a', ha', ch⟩ := st.change ha
    exact ⟨a', ha', ch.call.trans hk, st.latest hn hl⟩
  case h_2 =>
    have ⟨i, a, p, ha, hk, hp, hv, hl⟩ := h
    have ⟨a', ha', ch⟩ := st.change ha
    have hp' := st.ended_stable r ha hp ha'
    exact ⟨i, a', p, ha', ch.call.trans hk, hp', hv, st.latest hn hl⟩
  case h_3 => trivial

theorem settled (r : (machine ρ inner).Reachable c) (h : c.calls[k]? = some call) :
    Settled c k call := by
  induction c, r using Machine.Reachable.induction_on generalizing k call
  case init => simp [machine, init] at h
  case step c act c' r hs ih =>
    have st := next_step hs
    have keep (hc : c.calls[k]? = some call) (hn : ∀ id, act ≠ .attempt k id) :
        Settled c' k call := (ih hc).step r st hn
    have latest {k i} (hn : ∀ id, act ≠ .attempt k id) (h : c.Latest k i) : c'.Latest k i :=
      st.latest hn h
    cases st
    case subscribed | subscribeFailed | take | inboxClosed | ignore | lookup | deliver |
        published =>
      exact keep h (by simp)
    case request call' phase =>
      by_cases hl : k < c.calls.length
      case pos => exact keep (by rwa [List.getElem?_append_left hl] at h) (by simp)
      case neg =>
        obtain ⟨_, rfl⟩ := by simpa [List.getElem?_append, hl, List.getElem?_singleton] using h
        rcases phase with hp | ⟨_, hp⟩ <;> simp [Settled, hp]
    case attempt =>
      rcases List.getElem?_set_cases h with ⟨rfl, rfl⟩ | ⟨hk, h⟩
      · refine ⟨_, List.getElem?_concat_length, rfl, fun j b hb _ => ?_⟩
        obtain ⟨hj, _⟩ := List.getElem?_eq_some_iff.mp hb
        exact Nat.le_of_lt_succ <| by simpa using hj
      · exact keep h (by simp [hk.symm])
    case ended i a hash result handle ends =>
      by_cases hk : a.call = k
      case neg =>
        apply keep (by simpa [conclude, hk] using h)
        rintro id rfl
        cases ends
      case pos =>
        subst hk
        obtain ⟨call', hc, rfl⟩ := by simpa [conclude] using h
        obtain ⟨_, hc', attempting⟩ := attempting_of_live r handle ends.live
        cases hc.symm.trans hc'
        have hs := ih hc
        simp only [Settled, attempting] at hs
        obtain ⟨_, _, _, hl⟩ := hs
        unfold Settled
        split
        case h_1 => exact absurd ‹_› Call.resolve_ne_attempting
        case h_3 => trivial
        case h_2 v hp =>
          obtain ⟨p, hr, hv⟩ := Call.resolve_ok hp
          obtain ⟨hi, _⟩ := List.getElem?_eq_some_iff.mp handle
          refine ⟨i, _, p, List.getElem?_set_self hi, rfl, by simp [hr], by simpa, latest ?_ hl⟩
          rintro id rfl
          cases ends
    case wake awake =>
      rcases List.getElem?_set_cases h with ⟨_, rfl⟩ | ⟨_, h⟩
      · rcases awake with rfl | rfl <;> simp [Settled]
      · exact keep h (by simp)
    case dropIdle | dropAttempting =>
      rcases List.getElem?_set_cases h with ⟨_, rfl⟩ | ⟨_, h⟩
      · trivial
      · exact keep h (by simp)

end Client
end MomRpc
