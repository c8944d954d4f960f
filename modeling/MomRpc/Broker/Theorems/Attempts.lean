import Mathlib.Data.Fintype.EquivFin
import MomRpc.Broker.Theorems.Retrying

namespace MomRpc

namespace Attempt

-- The attempt has failed in a way that lets its call make another one.
def Retried (a : Attempt) : Prop :=
  ∃ details, a.phase = .ended (.error (.transportRetryable details))

end Attempt

namespace Call

variable {ρ : Type} {inner : Inner} {call : Call ρ} {hash : UInt64} {result : Except RpcError Bytes}

-- The call is about to make its next attempt, or waits before it does.
def Between (call : Call ρ) : Prop :=
  call.phase = .ready ∨ call.phase = .sleeping

-- There is still something to be done for the call.
def Unfinished (call : Call ρ) : Prop :=
  call.phase = .ready ∨ call.phase = .sleeping ∨ ∃ i, call.phase = .attempting i

theorem resolve_between (h : (call.resolve inner hash result).Between) :
    ∃ details, result = .error (.transportRetryable details) := by
  unfold Between resolve at h
  split at h
  case h_2 => simp [finish] at h
  case h_1 cfg loop _ _ =>
    have body := RetryLoop.onResult_body cfg loop hash result
    split at h
    case h_1 => simp [finish] at h
    case h_3 => simp at h
    case h_2 hs =>
      cases hs ▸ body
      exact ⟨_, rfl⟩

end Call

namespace Client

variable {ρ : Type} {inner : Inner} {c c' : Client ρ} {as : List (Action ρ)} {act : Action ρ}
  {i j k : ℕ} {a b : Attempt} {call call' : Call ρ}

-- Only the latest attempt of a call can be one that is not followed by another.
def Superseded (c : Client ρ) (k : ℕ) (call : Call ρ) : Prop :=
  ∀ i a, c.attempts[i]? = some a → a.call = k → a.Retried ∨ (c.Latest k i ∧ ¬call.Between)

theorem Superseded.step (su : Superseded c k call) (r : (machine ρ inner).Reachable c)
    (st : Step inner c act c') (hn : ∀ id, act ≠ .attempt k id)
    (stays : call'.Between → call.Between) : Superseded c' k call' := by
  intro i a' ha' hk
  rcases st.change_or_attempt ha' with ⟨a, ha, ch⟩ | ⟨_, rfl, -⟩
  case inr => exact absurd (hk ▸ rfl) (hn a'.correlationId)
  case inl =>
    rcases su i a ha (ch.call.symm.trans hk) with ⟨details, retried⟩ | ⟨latest, settled⟩
    · exact .inl ⟨details, st.ended_stable r ha retried ha'⟩
    · exact .inr ⟨st.latest hn latest, mt stays settled⟩

theorem superseded (r : (machine ρ inner).Reachable c) (h : c.calls[k]? = some call) :
    Superseded c k call := by
  induction c, r using Machine.Reachable.induction_on generalizing k call
  case init => simp [machine, init] at h
  case step c act c' r hs ih =>
    have st := next_step hs
    have keeps {i} (hn : ∀ id, act ≠ .attempt k id) (h : c.Latest k i) : c'.Latest k i :=
      st.latest hn h
    have step {call₁ call₂} (hc : c.calls[k]? = some call₁) (hn : ∀ id, act ≠ .attempt k id)
        (stays : call₂.Between → call₁.Between) : Superseded c' k call₂ :=
      (ih hc).step r st hn stays
    cases st
    case subscribed | subscribeFailed | take | inboxClosed | ignore | lookup | deliver |
        published =>
      exact step h (by simp) id
    case request call' _ =>
      by_cases hl : k < c.calls.length
      case pos => exact step (by rwa [List.getElem?_append_left hl] at h) (by simp) id
      case neg =>
        intro i a ha hk
        obtain ⟨call'', hc, _⟩ := env_eq_request r ha
        obtain ⟨lt, _⟩ := List.getElem?_eq_some_iff.mp hc
        exact absurd (hk ▸ lt) hl
    case attempt k' _ call' handle ready fresh =>
      rcases List.getElem?_set_cases h with ⟨rfl, rfl⟩ | ⟨hk, h⟩
      case inr => exact step h (by simp [hk.symm]) id
      case inl =>
        intro i a ha hk
        obtain ⟨hi, _⟩ := List.getElem?_eq_some_iff.mp ha
        simp only [List.length_append, List.length_singleton] at hi
        rcases Nat.lt_succ_iff_lt_or_eq.mp hi with hi | rfl
        case inl =>
          rw [List.getElem?_append_left hi] at ha
          exact .inl <| (ih handle i a ha hk).resolve_right fun h => h.right (.inl ready)
        case inr =>
          refine .inr ⟨fun j b hb _ => ?_, by simp [Call.Between]⟩
          obtain ⟨hj, _⟩ := List.getElem?_eq_some_iff.mp hb
          exact Nat.le_of_lt_succ <| by simpa using hj
    case ended i a hash result handle ends =>
      have hn id : act ≠ .attempt k id := by
        rintro rfl
        cases ends
      by_cases hk : a.call = k
      case neg => exact step (by simpa [conclude, hk] using h) hn id
      case pos =>
        subst hk
        obtain ⟨call', hc, rfl⟩ := by simpa [conclude] using h
        obtain ⟨_, hc', attempting⟩ := attempting_of_live r handle ends.live
        cases hc.symm.trans hc'
        have current := settled r hc
        simp only [Settled, attempting] at current
        obtain ⟨_, _, _, latest⟩ := current
        intro j b hb hj
        rcases List.getElem?_set_cases hb with ⟨rfl, rfl⟩ | ⟨ne, hb⟩
        case inl =>
          by_cases between : (call'.resolve inner hash result).Between
          case pos =>
            obtain ⟨details, hd⟩ := Call.resolve_between between
            exact .inl ⟨details, by simp [hd]⟩
          case neg => exact .inr ⟨keeps hn latest, between⟩
        case inr =>
          rcases ih hc j b hb hj with retried | ⟨latest', _⟩
          · exact .inl retried
          · exact absurd (Nat.le_antisymm (latest j b hb hj) (latest' i a handle rfl)) ne
    case wake k' call' _ _ handle sleeping _ =>
      rcases List.getElem?_set_cases h with ⟨rfl, rfl⟩ | ⟨_, h⟩
      · exact step handle (by simp) fun _ => .inr sleeping
      · exact step h (by simp) id
    case dropIdle | dropAttempting =>
      rcases List.getElem?_set_cases h with ⟨rfl, rfl⟩ | ⟨_, h⟩
      · exact step ‹_› (by simp) (by simp [Call.Between])
      · exact step h (by simp) id

-- The attempts that a call makes at most.
def limit (inner : Inner) : ℕ :=
  match inner.retryConfig with
  | none     => 1
  | some cfg => cfg.maxAttempts.toNat + 1

theorem operations_le {operation : ℕ → Except RpcError Bytes} {hash : ℕ → UInt64} :
    (retryWithBackoff inner.retryConfig operation hash).operations ≤ limit inner := by
  cases hc : inner.retryConfig
  case none => simp [retryWithBackoff, limit, hc]
  case some cfg =>
    obtain ⟨last, at'⟩ := RetryLoop.attempts cfg operation hash
    have operations := at'.operations
    have within := at'.within
    simp only [retryWithBackoff, limit, hc]
    omega

-- A call has been rejected, or conforms to an execution of `retry_with_backoff` with some outcomes
-- to come.
theorem follows (r : (machine ρ inner).Reachable c) (h : c.calls[k]? = some call) :
    (c.made k = 0 ∧ ∃ err, call.phase = .returned (.error err)) ∨
      ∃ operation hash, Follows inner operation hash call (c.made k) (c.outcomes k).length := by
  have ⟨_, run⟩ := r
  have ⟨req, _, re⟩ := retries run h
  unfold Retries at re
  split at re
  case h_1 => exact .inl ⟨re.right, _, re.left⟩
  case h_2 =>
    have ⟨hashes, _, re⟩ := re
    let _ : Inhabited (Except RpcError Bytes) := ⟨.error .timeout⟩
    have ⟨operation, begins⟩ := List.exists_begins (c.outcomes k)
    have ⟨hash, drawn⟩ := List.exists_begins hashes
    exact .inr ⟨operation, hash, re operation hash begins drawn⟩

theorem made_le (r : (machine ρ inner).Reachable c) (h : c.calls[k]? = some call) :
    c.made k ≤ limit inner := by
  rcases follows r h with ⟨zero, _⟩ | ⟨_, _, fo⟩
  · simp [zero]
  · exact fo.within.trans operations_le

theorem made_lt (r : (machine ρ inner).Reachable c) (h : c.calls[k]? = some call)
    (ready : call.phase = .ready) : c.made k < limit inner := by
  rcases follows r h with ⟨_, _, rejected⟩ | ⟨_, _, fo⟩
  · cases ready.symm.trans rejected
  · have ⟨all, reached⟩ := fo.of_ready ready
    exact all ▸ reached.lt_operations.trans_le operations_le

-- A call publishes one and the same request a limited number of times, each time under an id of its
-- own, and not again before the attempt before has failed in a way that lets it be retried.
theorem attempts_of_call (r : (machine ρ inner).Reachable c) (h : c.calls[k]? = some call) :
    c.made k ≤ limit inner ∧
      ∀ (i : ℕ) (a : Attempt), c.attempts[i]? = some a → a.call = k →
        a.env = call.request inner a.correlationId ∧
          (∀ j b, c.attempts[j]? = some b → b.correlationId = a.correlationId → j = i) ∧
          ∀ (j : ℕ) (b : Attempt), c.attempts[j]? = some b → b.call = k → i < j → a.Retried := by
  refine ⟨made_le r h, fun i a ha hk => ⟨?_, ?_, ?_⟩⟩
  · have ⟨_, hc, he⟩ := env_eq_request r ha
    cases h.symm.trans (hk ▸ hc)
    exact he
  · exact fun j b hb he => correlationId_injective r hb ha he
  · intro j b hb hj lt
    rcases superseded r h i a ha hk with retried | ⟨latest, _⟩
    · exact retried
    · exact absurd (latest j b hb hj) lt.not_ge

theorem attempts_of_call_retried :
    ∃ c call, (machine Bytes retryingClient).Run retriedRequest c ∧ c.calls[0]? = some call ∧
      c.made 0 ≤ 2 ∧
      ∀ (i : ℕ) (a : Attempt), c.attempts[i]? = some a → a.call = 0 →
        a.env = call.request retryingClient a.correlationId ∧
          (∀ j b, c.attempts[j]? = some b → b.correlationId = a.correlationId → j = i) ∧
          ∀ (j : ℕ) (b : Attempt), c.attempts[j]? = some b → b.call = 0 → i < j → a.Retried := by
  have ⟨c, call, _, run, h, _⟩ := retried_run
  exact ⟨c, call, run, h, attempts_of_call run.reachable h⟩

-- The call of which an action is a step.
def owner (c : Client ρ) : Action ρ → Option ℕ
  | .attempt k _ | .wake k | .drop k => some k
  | .published i _ _ | .respond i | .timeout i _ | .closed i => c.attempts[i]?.map (·.call)
  | _ => none

-- How many steps a call can take yet.
def fuel (inner : Inner) (k : ℕ) (c : Client ρ) : ℕ :=
  match c.calls[k]? with
  | none      => 4 * limit inner
  | some call =>
    match call.phase with
    | .ready        => 4 * (limit inner - c.made k)
    | .attempting i =>
      4 * (limit inner - c.made k) +
        match c.attempts[i]?.map (·.phase) with
        | some .publishing => 3
        | _                => 2
    | .sleeping => 4 * (limit inner - c.made k) + 1
    | _         => 0

theorem fuel_ready (h : c.calls[k]? = some call) (ready : call.phase = .ready) :
    c.fuel inner k = 4 * (limit inner - c.made k) := by
  simp [fuel, h, ready]

theorem fuel_sleeping (h : c.calls[k]? = some call) (sleeping : call.phase = .sleeping) :
    c.fuel inner k = 4 * (limit inner - c.made k) + 1 := by
  simp [fuel, h, sleeping]

theorem fuel_publishing (h : c.calls[k]? = some call) (attempting : call.phase = .attempting i)
    (ha : c.attempts[i]? = some a) (publishing : a.phase = .publishing) :
    c.fuel inner k = 4 * (limit inner - c.made k) + 3 := by
  simp [fuel, h, attempting, ha, publishing]

theorem fuel_waiting (h : c.calls[k]? = some call) (attempting : call.phase = .attempting i)
    (ha : c.attempts[i]? = some a) (waiting : a.phase = .waiting) :
    c.fuel inner k = 4 * (limit inner - c.made k) + 2 := by
  simp [fuel, h, attempting, ha, waiting]

theorem fuel_dropped (h : c.calls[k]? = some call) (dropped : call.phase = .dropped) :
    c.fuel inner k = 0 := by
  simp [fuel, h, dropped]

-- A call that awaits nothing has at most one step to take before its next attempt.
theorem fuel_le_succ (h : c.calls[k]? = some call) (idle : ∀ i, call.phase ≠ .attempting i) :
    c.fuel inner k ≤ 4 * (limit inner - c.made k) + 1 := by
  unfold fuel
  cases hp : call.phase <;> simp_all

theorem le_fuel (h : c.calls[k]? = some call) (attempting : call.phase = .attempting i) :
    4 * (limit inner - c.made k) + 2 ≤ c.fuel inner k := by
  simp only [fuel, h, attempting]
  split <;> omega

theorem fuel_frame (r : (machine ρ inner).Reachable c) (calls : c'.calls[k]? = c.calls[k]?)
    (made : c'.made k = c.made k)
    (attempts : ∀ (i : ℕ) (a : Attempt), c.attempts[i]? = some a → a.call = k →
      c'.attempts[i]?.map (·.phase) = some a.phase) : c'.fuel inner k = c.fuel inner k := by
  unfold fuel
  rw [calls, made]
  split <;> try rfl
  case h_2 call h =>
    split <;> try rfl
    case h_2 i attempting =>
      have ⟨a, ha, hk, _⟩ := live_of_attempting r h attempting
      rw [attempts i a ha hk, ha]
      rfl

-- The step uses up some of the call's fuel if it is one of the call's, and adds none if it is not.
def Spends (inner : Inner) (k : ℕ) (c : Client ρ) (act : Action ρ) (c' : Client ρ) : Prop :=
  (if c.owner act = some k then 1 else 0) + c'.fuel inner k ≤ c.fuel inner k

namespace Spends

theorem own (owner : c.owner act = some k) (lt : c'.fuel inner k < c.fuel inner k) :
    Spends inner k c act c' := by
  rw [Spends, if_pos owner, Nat.add_comm]
  exact lt

-- A step of another call leaves alone what the fuel depends on.
theorem frame (r : (machine ρ inner).Reachable c)
    (hs : (machine ρ inner).next c act = some c') (owner : c.owner act ≠ some k)
    (other : act.isAttemptOf k = false) (calls : c'.calls[k]? = c.calls[k]?)
    (attempts : ∀ (i : ℕ) (a : Attempt), c.attempts[i]? = some a → a.call = k →
      c'.attempts[i]?.map (·.phase) = some a.phase) : Spends inner k c act c' := by
  rw [Spends, if_neg owner, Nat.zero_add]
  exact (fuel_frame r calls (by simp [(next_step hs).made, other]) attempts).le

end Spends

theorem phase_set {a' : Attempt} (handle : c.attempts[i]? = some a) (hk : a.call ≠ k) (j : ℕ)
    (b : Attempt) (hb : c.attempts[j]? = some b) (hj : b.call = k) :
    (c.attempts.set i a')[j]?.map (·.phase) = some b.phase := by
  have ne : i ≠ j := by
    rintro rfl
    cases handle.symm.trans hb
    exact hk hj
  simp [ne, hb]

theorem spends_request {targetNodeId method : String} {req : Except RpcError Bytes}
    {fromSlice : Bytes → Except RpcError ρ} (r : (machine ρ inner).Reachable c)
    (hs : (machine ρ inner).next c (.request targetNodeId method req fromSlice) = some c') :
    Spends inner k c (.request targetNodeId method req fromSlice) c' := by
  cases next_step hs
  case ended ends => cases ends
  case request call phase =>
    by_cases hk : k = c.calls.length
    case pos => rcases phase with hp | ⟨_, hp⟩ <;> simp [Spends, owner, fuel, hk, hp]
    case neg =>
      refine .frame r hs nofun rfl ?_ fun i a ha _ => by simp [ha]
      rcases Nat.lt_or_gt_of_ne hk with lt | gt
      · exact List.getElem?_append_left lt
      · rw [List.getElem?_eq_none (by simp; omega), List.getElem?_eq_none gt.le]

theorem spends_attempt {k' : ℕ} {id : String} (r : (machine ρ inner).Reachable c)
    (hs : (machine ρ inner).next c (.attempt k' id) = some c') :
    Spends inner k c (.attempt k' id) c' := by
  have made := (next_step hs).made (k := k)
  cases next_step hs
  case ended ends => cases ends
  case attempt call ready handle fresh =>
    obtain ⟨lt, _⟩ := List.getElem?_eq_some_iff.mp handle
    by_cases hk : k' = k
    case neg =>
      refine .frame r hs (by simpa [owner]) (by simpa [Action.isAttemptOf]) (by simp [hk]) ?_
      intro i a ha _
      obtain ⟨hi, _⟩ := List.getElem?_eq_some_iff.mp ha
      simp [List.getElem?_append_left hi, ha]
    case pos =>
      subst hk
      have room := made_lt r handle ready
      refine .own rfl ?_
      rw [fuel_ready handle ready,
        fuel_publishing (List.getElem?_set_self lt) rfl List.getElem?_concat_length rfl, made]
      simp only [Action.isAttemptOf, decide_true, if_true]
      omega

theorem spends_await {hash : UInt64} (r : (machine ρ inner).Reachable c)
    (hs : (machine ρ inner).next c (.published i (.ok ()) hash) = some c') :
    Spends inner k c (.published i (.ok ()) hash) c' := by
  have made := (next_step hs).made (k := k)
  cases next_step hs
  case ended ends => cases ends
  case published a publishing handle =>
    by_cases hk : a.call = k
    case neg => exact .frame r hs (by simpa [owner, handle]) rfl rfl (phase_set handle hk)
    case pos =>
      subst hk
      obtain ⟨call, hc, attempting⟩ :=
        attempting_of_live r handle (Attempt.live_publishing publishing)
      obtain ⟨lt, _⟩ := List.getElem?_eq_some_iff.mp handle
      have after : fuel inner a.call { c with
          attempts := c.attempts.set i { a with phase := .waiting } } = _ :=
        fuel_waiting hc attempting (List.getElem?_set_self lt) rfl
      refine .own (by simp [owner, handle]) ?_
      rw [fuel_publishing hc attempting handle publishing, after, made]
      exact Nat.lt_succ_self _

theorem spends_end {hash : UInt64} {result : Except RpcError Bytes}
    (r : (machine ρ inner).Reachable c) (handle : c.attempts[i]? = some a)
    (ends : Ends inner c i a act hash result)
    (hs : (machine ρ inner).next c act = some (c.conclude inner i a hash result)) :
    Spends inner k c act (c.conclude inner i a hash result) := by
  have owner : c.owner act = some a.call := by cases ends <;> simp [owner, handle]
  have other : act.isAttemptOf k = false := by cases ends <;> rfl
  have made := (next_step hs).made (k := k)
  by_cases hk : a.call = k
  case neg =>
    exact .frame r hs (by simpa [owner]) other (by simp [conclude, hk]) (phase_set handle hk)
  case pos =>
    subst hk
    obtain ⟨call, hc, attempting⟩ := attempting_of_live r handle ends.live
    have after : (c.conclude inner i a hash result).calls[a.call]? =
        some (call.resolve inner hash result) := by simp [conclude, hc]
    refine .own owner <| Nat.lt_of_lt_of_le ?_ (le_fuel hc attempting)
    simp only [other, Bool.false_eq_true, if_false, Nat.add_zero] at made
    rw [← made]
    exact Nat.lt_succ_of_le <| fuel_le_succ after fun _ => Call.resolve_ne_attempting

theorem spends_wake {k' : ℕ} (r : (machine ρ inner).Reachable c)
    (hs : (machine ρ inner).next c (.wake k') = some c') : Spends inner k c (.wake k') c' := by
  have made := (next_step hs).made (k := k)
  cases next_step hs
  case ended ends => cases ends
  case wake call loop phase sleeping awake handle =>
    by_cases hk : k' = k
    case neg => exact .frame r hs (by simpa [owner]) rfl (by simp [hk]) fun i a ha _ => by simp [ha]
    case pos =>
      subst hk
      obtain ⟨lt, _⟩ := List.getElem?_eq_some_iff.mp handle
      refine .own rfl ?_
      rw [fuel_sleeping handle sleeping]
      rcases awake with rfl | rfl
      · rw [fuel_ready (List.getElem?_set_self lt) rfl, made]
        exact Nat.lt_succ_self _
      · simp [fuel, lt]

theorem spends_drop {k' : ℕ} (r : (machine ρ inner).Reachable c)
    (hs : (machine ρ inner).next c (.drop k') = some c') : Spends inner k c (.drop k') c' := by
  cases next_step hs
  case ended ends => cases ends
  case dropIdle call idle handle =>
    by_cases hk : k' = k
    case neg => exact .frame r hs (by simpa [owner]) rfl (by simp [hk]) fun i a ha _ => by simp [ha]
    case pos =>
      subst hk
      obtain ⟨lt, _⟩ := List.getElem?_eq_some_iff.mp handle
      refine .own rfl ?_
      rw [fuel_dropped (List.getElem?_set_self lt) rfl]
      rcases idle with ready | sleeping
      · have room := made_lt r handle ready
        rw [fuel_ready handle ready]
        omega
      · rw [fuel_sleeping handle sleeping]
        exact Nat.succ_pos _
  case dropAttempting i call attempting handle =>
    obtain ⟨a, ha, hc, _⟩ := live_of_attempting r handle attempting
    by_cases hk : k' = k
    case neg =>
      refine .frame r hs (by simpa [owner]) rfl (by simp [hk]) fun j b hb hj => ?_
      have ne : i ≠ j := by
        rintro rfl
        cases ha.symm.trans hb
        exact hk (hc.symm.trans hj)
      simp [ne, hb]
    case pos =>
      subst hk
      obtain ⟨lt, _⟩ := List.getElem?_eq_some_iff.mp handle
      refine .own rfl <| Nat.lt_of_lt_of_le ?_ (le_fuel handle attempting)
      rw [fuel_dropped (List.getElem?_set_self lt) rfl]
      exact Nat.succ_pos _

-- A step of a call uses up what steps it has left, and no other step adds to them.
theorem fuel_step (r : (machine ρ inner).Reachable c)
    (hs : (machine ρ inner).next c act = some c') : Spends inner k c act c' := by
  cases next_step hs
  case subscribed | subscribeFailed | take | inboxClosed | ignore | lookup =>
    exact (Nat.zero_add _).le
  case deliver j payload _ =>
    refine .frame r hs nofun rfl rfl fun i a ha _ => ?_
    by_cases hj : j = i <;> simp [ha, hj]
  case request               => exact spends_request r hs
  case attempt               => exact spends_attempt r hs
  case published             => exact spends_await r hs
  case ended handle ends     => exact spends_end r handle ends hs
  case wake                  => exact spends_wake r hs
  case dropIdle              => exact spends_drop r hs
  case dropAttempting        => exact spends_drop r hs

-- The call awaits its transport, whose `publish(..)` has no time limit.
def AwaitsPublish (c : Client ρ) (call : Call ρ) : Prop :=
  ∃ i a, call.phase = .attempting i ∧ c.attempts[i]? = some a ∧ a.phase = .publishing

-- The steps of a call which need neither its transport nor its caller.
def Action.Unaided : Action ρ → Prop
  | .attempt .. | .respond _ | .timeout .. | .closed _ | .wake _ => True
  | _                                                            => False

-- A call that is not over and does not await its transport can take a step by itself, whatever the
-- client task and the other calls have done so far.
theorem unaided_step (r : (machine ρ inner).Reachable c) (h : c.calls[k]? = some call)
    (unfinished : call.Unfinished) (free : ¬c.AwaitsPublish call) :
    ∃ act c', c.owner act = some k ∧ act.Unaided ∧ (machine ρ inner).next c act = some c' := by
  have enabled act (own : c.owner act = some k) (un : act.Unaided)
      (h : (machine ρ inner |>.next c act).isSome) :
      ∃ act c', c.owner act = some k ∧ act.Unaided ∧ (machine ρ inner).next c act = some c' :=
    ⟨act, _, own, un, Option.some_get h |>.symm⟩
  rcases unfinished with ready | sleeping | ⟨i, attempting⟩
  case inl =>
    obtain ⟨id, hid⟩ := Infinite.exists_notMem_finset (c.attempts.map (·.correlationId)).toFinset
    have fresh : ∀ a ∈ c.attempts, a.correlationId ≠ id := by simpa using hid
    have step : (c.attempt inner k id).isSome := by
      simp only [attempt, h, ready, if_pos fresh, Option.isSome_some]
    exact enabled (.attempt k id) rfl trivial step
  case inr.inl =>
    rcases follows r h with ⟨_, _, rejected⟩ | ⟨_, _, fo⟩
    · cases sleeping.symm.trans rejected
    · obtain ⟨_, cfg, _, _, _, loop, _, config, own, _⟩ := fo.of_sleeping sleeping
      exact enabled (.wake k) rfl trivial <| by
        simp [machine, next, wake, h, sleeping, config, own]
  case inr.inr =>
    obtain ⟨a, ha, hk, live⟩ := live_of_attempting r h attempting
    have own : c.attempts[i]?.map (·.call) = some k := by simp [ha, hk]
    rcases Attempt.live_iff.mp live with publishing | waiting
    case inl => exact absurd ⟨i, a, attempting, ha, publishing⟩ free
    case inr =>
      cases response : a.response
      case some payload =>
        have step : (c.respond inner i).isSome := by simp [respond, ha, waiting, response]
        exact enabled (.respond i) own trivial step
      case none =>
        -- Time may run out as long as a sender is left, and the channel is closed once none is.
        by_cases sender : c.HasSender i a
        case pos =>
          have step : (c.timeout inner i 0).isSome := by
            simp [timeout, ha, waiting, response, sender]
          exact enabled (.timeout i 0) own trivial step
        case neg =>
          have step : (c.closed inner i).isSome := by simp [closed, ha, waiting, response, sender]
          exact enabled (.closed i) own trivial step

-- Whatever `publish(..)` returns, the call that awaits it takes it.
theorem published_step (awaits : c.AwaitsPublish call) (hash : UInt64)
    (result : Except RpcError Unit) :
    ∃ i c', call.phase = .attempting i ∧
      (machine ρ inner).next c (.published i result hash) = some c' := by
  have ⟨i, a, attempting, ha, publishing⟩ := awaits
  have step : (c.published inner i result hash).isSome := by
    cases result <;> simp only [published, ha, publishing, Option.isSome_some]
  exact ⟨i, _, attempting, Option.some_get step |>.symm⟩

-- A call never goes on for ever, and never gets stuck but in a `publish(..)` of its transport that
-- does not return.
theorem call_terminates (r : (machine ρ inner).Run as c) (k : ℕ) :
    (machine ρ inner).count (fun c act => c.owner act = some k) (.init inner) as ≤
        4 * limit inner ∧
      ∀ call, c.calls[k]? = some call → call.Unfinished →
        (c.AwaitsPublish call → ∀ result hash, ∃ i c', call.phase = .attempting i ∧
          (machine ρ inner).next c (.published i result hash) = some c') ∧
        (¬c.AwaitsPublish call → ∃ act c', c.owner act = some k ∧ act.Unaided ∧
          (machine ρ inner).next c act = some c') := by
  constructor
  case left =>
    have step (c : Client ρ) act c' (r : (machine ρ inner).Reachable c)
        (hs : (machine ρ inner).next c act = some c') : Spends inner k c act c' := fuel_step r hs
    exact (Nat.le_add_right ..).trans <| Machine.count_add_le .init r step
  case right =>
    intro call h unfinished
    exact ⟨fun awaits result hash => published_step awaits hash result,
      fun free => unaided_step r.reachable h unfinished free⟩

theorem call_terminates_published :
    let as : List (Action Bytes) :=
      [.subscribed, .request "t" "m" (.ok []) .ok, .attempt 0 "b", .published 0 (.ok ()) 0]
    (machine Bytes retryingClient).count (fun c act => c.owner act = some 0)
        (.init retryingClient) as ≤ 8 ∧
      ∃ c, (machine Bytes retryingClient).Run as c ∧ ∃ act c', c.owner act = some 0 ∧
        act.Unaided ∧ (machine Bytes retryingClient).next c act = some c' := by
  intro as
  have run : (machine Bytes retryingClient).Run as _ := Machine.Run.of_isSome rfl
  have ⟨count, going⟩ := call_terminates run 0
  refine ⟨count, _, run, (going _ rfl (.inr <| .inr ⟨0, rfl⟩)).right ?_⟩
  rintro ⟨_, _, ⟨⟩, ⟨⟩, ⟨⟩⟩

end Client
end MomRpc
