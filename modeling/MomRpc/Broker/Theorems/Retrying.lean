import MomRpc.Broker.Theorems.Correlation
import MomRpc.Retry.Theorems.Loop

namespace MomRpc

namespace RetryLoop

variable {T : Type} {cfg : RetryConfig} {operation : ℕ → Except RpcError T} {hash : ℕ → UInt64}
  {loop loop' : RetryLoop} {jittered : Duration} {n : ℕ}

-- The loop comes to its `n`-th iteration, with these local variables.
inductive Iterates (cfg : RetryConfig) (operation : ℕ → Except RpcError T) (hash : ℕ → UInt64) :
    ℕ → RetryLoop → Prop
  | init : Iterates cfg operation hash 0 (init cfg)
  | next {n loop loop' next jittered} (iterates : Iterates cfg operation hash n loop)
    (sleep : loop.onResult cfg (hash n) (operation n) = .sleep jittered loop')
    (awake : loop'.afterSleep cfg = some next) :
    Iterates cfg operation hash (n + 1) next

namespace Iterates

theorem attempt (it : Iterates cfg operation hash n loop) : loop.attempt.toNat = n := by
  induction it
  case init => rfl
  case next sleep awake ih => rw [afterSleep_attempt awake, (sleep_attempt sleep).left, ih]

-- What is left to do from the iteration on is what the call does next.
theorem run (it : Iterates cfg operation hash n loop) :
    ((RetryLoop.init cfg).run cfg operation hash).operations =
        n + (loop.run cfg operation hash).operations ∧
      ((RetryLoop.init cfg).run cfg operation hash).outcome =
        (loop.run cfg operation hash).outcome := by
  induction it
  case init => simp
  case next it sleep awake ih =>
    rw [← it.attempt] at sleep
    rw [run_sleep sleep awake] at ih
    exact ⟨by simp only at ih; omega, ih.right⟩

theorem lt_operations (it : Iterates cfg operation hash n loop) :
    n < ((RetryLoop.init cfg).run cfg operation hash).operations := by
  rw [it.run.left, Nat.lt_add_right_iff_pos]
  have runs := RetryLoop.runs cfg operation hash loop
  generalize loop.run cfg operation hash = trace at runs ⊢
  cases runs <;> simp

theorem finished {result : Except RpcError T} (it : Iterates cfg operation hash n loop)
    (h : loop.onResult cfg (hash n) (operation n) = .finished result) :
    ((RetryLoop.init cfg).run cfg operation hash).operations = n + 1 ∧
      ((RetryLoop.init cfg).run cfg operation hash).outcome = some result := by
  rw [it.run.left, it.run.right, run_finished (it.attempt.symm ▸ h)]
  exact ⟨rfl, rfl⟩

theorem panicked (it : Iterates cfg operation hash n loop)
    (h : loop.onResult cfg (hash n) (operation n) = .panicked) :
    ((RetryLoop.init cfg).run cfg operation hash).operations = n + 1 ∧
      ((RetryLoop.init cfg).run cfg operation hash).outcome = none := by
  rw [it.run.left, it.run.right, run_panicked (it.attempt.symm ▸ h)]
  exact ⟨rfl, rfl⟩

theorem sleep_panicked (it : Iterates cfg operation hash n loop)
    (h : loop.onResult cfg (hash n) (operation n) = .sleep jittered loop')
    (hs : loop'.afterSleep cfg = none) :
    ((RetryLoop.init cfg).run cfg operation hash).operations = n + 1 ∧
      ((RetryLoop.init cfg).run cfg operation hash).outcome = none := by
  rw [it.run.left, it.run.right, run_sleep_panicked (it.attempt.symm ▸ h) hs]
  exact ⟨rfl, rfl⟩

end Iterates
end RetryLoop

namespace Client

variable {ρ : Type} {inner : Inner} {c c' : Client ρ} {as : List (Action ρ)} {act : Action ρ}
  {i k : ℕ} {a : Attempt} {call call' : Call ρ} {req : Except RpcError Bytes}
  {rejection : Option RpcError} {operation : ℕ → Except RpcError Bytes} {hash : ℕ → UInt64} {n : ℕ}

-- What has come of an attempt of the `k`-th call.
def outcome? (k : ℕ) (a : Attempt) : Option (Except RpcError Bytes) :=
  if a.call = k then
    match a.phase with
    | .ended result => some result
    | _             => none
  else
    none

-- The outcomes of the attempts of the `k`-th call, and how many attempts it has made.
def outcomes (c : Client ρ) (k : ℕ) : List (Except RpcError Bytes) :=
  c.attempts.filterMap (outcome? k)

def made (c : Client ρ) (k : ℕ) : ℕ :=
  c.attempts.countP (·.call = k)

theorem outcome?_live (live : a.Live) : outcome? k a = none := by
  rcases Attempt.live_iff.mp live with h | h <;> simp [outcome?, h]

theorem outcome?_send {payload : Bytes} : outcome? k (a.send payload) = outcome? k a := by
  simp [outcome?]

theorem outcomes_conclude {hash : UInt64} {result : Except RpcError Bytes} (ne : a.call ≠ k)
    (handle : c.attempts[i]? = some a) :
    (c.conclude inner i a hash result).outcomes k = c.outcomes k :=
  List.filterMap_set_eq handle <| by simp [outcome?, ne]

-- The attempt that a call awaits is its latest one.
theorem outcomes_conclude_own {hash : UInt64} {result : Except RpcError Bytes}
    (r : (machine ρ inner).Reachable c) (handle : c.attempts[i]? = some a) (live : a.Live) :
    (c.conclude inner i a hash result).outcomes a.call = c.outcomes a.call ++ [result] := by
  have ⟨call, hc, attempting⟩ := attempting_of_live r handle live
  have settled := settled r hc
  simp only [Settled, attempting] at settled
  obtain ⟨_, _, _, latest⟩ := settled
  have last m b (hm : i < m) (hb : c.attempts[m]? = some b) : outcome? a.call b = none := by
    have ne : b.call ≠ a.call := fun he => Nat.not_le_of_lt hm <| latest m b hb he
    simp [outcome?, ne]
  rw [outcomes, conclude, List.filterMap_set_last handle (outcome?_live live) last]
  simp [outcome?, outcomes]

-- Only the end of an attempt of the call adds to its outcomes.
theorem Step.outcomes (r : (machine ρ inner).Reachable c) (st : Step inner c act c')
    (other : ∀ i a hash result, c.attempts[i]? = some a → Ends inner c i a act hash result →
      a.call ≠ k) : c'.outcomes k = c.outcomes k := by
  cases st <;> try rfl
  case deliver => exact List.filterMap_modify_eq fun a _ => outcome?_send
  case attempt => simp [Client.outcomes, outcome?]
  case published handle publishing =>
    refine List.filterMap_set_eq handle ?_
    simp [outcome?, publishing]
  case ended handle ends => exact outcomes_conclude (other _ _ _ _ handle ends) handle
  case dropAttempting i call handle attempting =>
    have ⟨a, ha, _, live⟩ := live_of_attempting r handle attempting
    refine List.filterMap_modify_eq fun b hb => ?_
    cases ha.symm.trans hb
    rw [outcome?_live live]
    simp [outcome?]

def Action.isAttemptOf (k : ℕ) : Action ρ → Bool
  | .attempt k' _ => k' = k
  | _             => false

theorem Step.made (st : Step inner c act c') :
    c'.made k = c.made k + if act.isAttemptOf k then 1 else 0 := by
  cases st <;> try rfl
  case deliver            => exact List.countP_modify_eq fun a _ => by simp
  case attempt            => simp [Client.made, Action.isAttemptOf, List.countP_singleton]
  case published handle _ => exact List.countP_set_eq handle rfl
  case ended handle ends  => cases ends <;> exact List.countP_set_eq handle rfl
  case dropAttempting     => exact List.countP_modify_eq fun _ _ => rfl

theorem wake_inv (h : (machine ρ inner).next c (.wake k) = some c') :
    ∃ call cfg loop, c.calls[k]? = some call ∧ call.phase = .sleeping ∧
      inner.retryConfig = some cfg ∧ call.loop = some loop ∧
      c' = { c with calls := c.calls.set k <|
        match loop.afterSleep cfg with
        | none      => { call with phase := .panicked }
        | some loop => { call with loop, phase := .ready } } := by
  simp only [machine, next, Client.wake] at h
  split at h <;> try cases h
  case _ call handle =>
    split at h <;> cases h
    case _ cfg loop sleeping config own =>
      exact ⟨call, cfg, loop, handle, sleeping, config, own, rfl⟩

-- The call's next attempt would be the `n`-th iteration of `retry_with_backoff`.
def Reached (inner : Inner) (operation : ℕ → Except RpcError Bytes) (hash : ℕ → UInt64) (n : ℕ)
    (loop : Option RetryLoop) : Prop :=
  match inner.retryConfig with
  | none     => n = 0
  | some cfg => ∃ own, loop = some own ∧ RetryLoop.Iterates cfg operation hash n own

-- Where a call that has not been rejected is in the execution of `retry_with_backoff`, when it has
-- made this many attempts of which this many have ended.
inductive Follows (inner : Inner) (operation : ℕ → Except RpcError Bytes) (hash : ℕ → UInt64)
    (call : Call ρ) (made ended : ℕ) : Prop
  | ready (phase : call.phase = .ready) (all : made = ended)
    (reached : Reached inner operation hash ended call.loop)
  | attempting {i : ℕ} (phase : call.phase = .attempting i) (one : made = ended + 1)
    (reached : Reached inner operation hash ended call.loop)
  | sleeping {cfg last loop jittered loop'} (phase : call.phase = .sleeping) (all : made = ended)
    (after : ended = last + 1) (config : inner.retryConfig = some cfg)
    (own : call.loop = some loop') (iterates : RetryLoop.Iterates cfg operation hash last loop)
    (sleep : loop.onResult cfg (hash last) (operation last) = .sleep jittered loop')
  | returned {result} (phase : call.phase = .returned (result.bind call.fromSlice))
    (all : made = ended)
    (operations : (retryWithBackoff inner.retryConfig operation hash).operations = ended)
    (outcome : (retryWithBackoff inner.retryConfig operation hash).outcome = some result)
  | panicked (phase : call.phase = .panicked) (all : made = ended)
    (operations : (retryWithBackoff inner.retryConfig operation hash).operations = ended)
    (outcome : (retryWithBackoff inner.retryConfig operation hash).outcome = none)
  | dropped (phase : call.phase = .dropped)
    (within : made ≤ (retryWithBackoff inner.retryConfig operation hash).operations)

namespace Follows

variable {made ended : ℕ}

theorem of_ready (fo : Follows inner operation hash call made ended) (ready : call.phase = .ready) :
    made = ended ∧ Reached inner operation hash ended call.loop := by
  cases fo
  case ready all reached => exact ⟨all, reached⟩
  all_goals simp_all

theorem of_attempting (fo : Follows inner operation hash call made ended)
    (attempting : call.phase = .attempting i) :
    made = ended + 1 ∧ Reached inner operation hash ended call.loop := by
  cases fo
  case attempting one reached => exact ⟨one, reached⟩
  all_goals simp_all

theorem of_sleeping (fo : Follows inner operation hash call made ended)
    (sleeping : call.phase = .sleeping) :
    made = ended ∧ ∃ cfg last loop jittered loop', ended = last + 1 ∧
      inner.retryConfig = some cfg ∧ call.loop = some loop' ∧
      RetryLoop.Iterates cfg operation hash last loop ∧
      loop.onResult cfg (hash last) (operation last) = .sleep jittered loop' := by
  cases fo
  case sleeping all after config own iterates sleep =>
    exact ⟨all, _, _, _, _, _, after, config, own, iterates, sleep⟩
  all_goals simp_all

end Follows

theorem Reached.init : Reached inner operation hash 0 (inner.retryConfig.map RetryLoop.init) := by
  unfold Reached
  split
  case h_1 => rfl
  case h_2 cfg hc => exact ⟨_, by rw [hc]; rfl, .init⟩

theorem Reached.lt_operations {loop : Option RetryLoop}
    (re : Reached inner operation hash n loop) :
    n < (retryWithBackoff inner.retryConfig operation hash).operations := by
  unfold Reached at re
  split at re
  case h_1 hc       => simp [retryWithBackoff, hc, re]
  case h_2 cfg hc   =>
    obtain ⟨_, _, it⟩ := re
    simpa only [retryWithBackoff, hc] using it.lt_operations

theorem Reached.resolve (re : Reached inner operation hash n call.loop) :
    Follows inner operation hash (call.resolve inner (hash n) (operation n)) (n + 1) (n + 1) := by
  unfold Reached at re
  split at re
  case h_1 hc =>
    subst re
    have he : call.resolve inner (hash 0) (operation 0) = call.finish (operation 0) := by
      simp [Call.resolve, hc]
    rw [he]
    exact .returned rfl rfl (by simp [retryWithBackoff, hc]) (by simp [retryWithBackoff, hc])
  case h_2 cfg hc =>
    obtain ⟨loop, own, it⟩ := re
    simp only [Call.resolve, hc, own]
    split
    case h_1 result h =>
      obtain ⟨operations, outcome⟩ := it.finished h
      exact .returned rfl rfl (by rwa [hc]) (by rwa [hc])
    case h_2 jittered loop' h => exact .sleeping rfl rfl rfl hc rfl it h
    case h_3 h =>
      obtain ⟨operations, outcome⟩ := it.panicked h
      exact .panicked rfl rfl (by rwa [hc]) (by rwa [hc])

theorem Follows.wake {cfg : RetryConfig} {loop : RetryLoop} {made ended : ℕ}
    (fo : Follows inner operation hash call made ended) (sleeping : call.phase = .sleeping)
    (config : inner.retryConfig = some cfg) (own : call.loop = some loop) :
    Follows inner operation hash
      (match loop.afterSleep cfg with
        | none      => { call with phase := .panicked }
        | some loop => { call with loop, phase := .ready })
      made ended := by
  obtain ⟨rfl, cfg', last, _, _, loop', rfl, config', own', it, sleep⟩ := fo.of_sleeping sleeping
  cases config.symm.trans config'
  cases own.symm.trans own'
  split
  case h_1 h =>
    have ⟨operations, outcome⟩ := it.sleep_panicked sleep h
    exact .panicked rfl rfl (by rwa [config]) (by rwa [config])
  case h_2 next h =>
    refine .ready rfl rfl ?_
    simp only [Reached, config]
    exact ⟨next, rfl, .next it sleep h⟩

-- A call has not made more attempts than it is going to make.
theorem Follows.within {made ended : ℕ} (fo : Follows inner operation hash call made ended) :
    made ≤ (retryWithBackoff inner.retryConfig operation hash).operations := by
  cases fo
  case ready all reached        => exact all ▸ reached.lt_operations.le
  case attempting one reached   => exact one ▸ reached.lt_operations
  case sleeping all after config _ it _ =>
    rw [all, after, config]
    exact it.lt_operations
  case returned all operations _ => exact (all.trans operations.symm).le
  case panicked all operations _ => exact (all.trans operations.symm).le
  case dropped within            => exact within

theorem request_inv {targetNodeId method : String} {fromSlice : Bytes → Except RpcError ρ}
    (h : (machine ρ inner).next c (.request targetNodeId method req fromSlice) = some c') :
    ∃ call, c' = { c with calls := c.calls ++ [call] } ∧
      match inner.rejection req with
      | some err => call.phase = .returned (.error err)
      | none     => ∀ operation hash, Follows inner operation hash call 0 0 := by
  cases h
  refine ⟨_, rfl, ?_⟩
  cases hm : inner.mode.requests
  case false => simp [Inner.rejection, hm]
  case true =>
    cases req
    case error => simp [Inner.rejection, hm]
    case ok    => simpa [Inner.rejection, hm] using fun _ _ => .ready rfl rfl .init

-- A call that has been rejected makes no attempt, and the attempts of any other so far are those of
-- an execution of `retry_with_backoff`, whatever is to come of the attempts it has yet to make.
def Retries (inner : Inner) (rejection : Option RpcError) (c : Client ρ) (k : ℕ) (call : Call ρ) :
    Prop :=
  match rejection with
  | some err => call.phase = .returned (.error err) ∧ c.made k = 0
  | none =>
    ∃ hashes : List UInt64, hashes.length = (c.outcomes k).length ∧
      ∀ operation hash, (c.outcomes k).Begins operation → hashes.Begins hash →
        Follows inner operation hash call (c.made k) (c.outcomes k).length

theorem Retries.accepted (re : Retries inner rejection c k call)
    (going : ∀ result, call.phase ≠ .returned result) : rejection = none := by
  cases rejection
  case none => rfl
  case some => exact absurd re.left (going _)

theorem Retries.keep (re : Retries inner rejection c k call)
    (outcomes : c'.outcomes k = c.outcomes k) (made : c'.made k = c.made k) :
    Retries inner rejection c' k call := by
  unfold Retries
  rwa [outcomes, made]

-- The call has moved on while none of its attempts has ended.
theorem Retries.move (re : Retries inner rejection c k call)
    (going : ∀ result, call.phase ≠ .returned result) (outcomes : c'.outcomes k = c.outcomes k)
    (follows : ∀ operation hash,
      Follows inner operation hash call (c.made k) (c.outcomes k).length →
        Follows inner operation hash call' (c'.made k) (c.outcomes k).length) :
    Retries inner rejection c' k call' := by
  cases re.accepted going
  have ⟨hashes, length, re⟩ := re
  refine ⟨hashes, by rw [length, outcomes], ?_⟩
  rw [outcomes]
  exact fun operation hash ho hh => follows operation hash <| re operation hash ho hh

theorem Retries.dropped (re : Retries inner rejection c k call)
    (going : ∀ result, call.phase ≠ .returned result) (outcomes : c'.outcomes k = c.outcomes k)
    (made : c'.made k = c.made k) : Retries inner rejection c' k { call with phase := .dropped } :=
  re.move going outcomes fun _ _ fo => .dropped rfl <| made ▸ fo.within

theorem Retries.ended {hash : UInt64} {result : Except RpcError Bytes} {j : ℕ}
    (re : Retries inner rejection c k call) (attempting : call.phase = .attempting j)
    (outcomes : c'.outcomes k = c.outcomes k ++ [result]) (made : c'.made k = c.made k) :
    Retries inner rejection c' k (call.resolve inner hash result) := by
  cases re.accepted (by simp [attempting])
  have ⟨hashes, length, re⟩ := re
  refine ⟨hashes ++ [hash], by simp [length, outcomes], ?_⟩
  rw [outcomes, made, List.length_append, List.length_singleton]
  intro operation hash' ho hh
  have ⟨ho, result⟩ := List.begins_concat_iff.mp ho
  have ⟨hh, drawn⟩ := List.begins_concat_iff.mp hh
  rw [length] at drawn
  have ⟨one, reached⟩ := (re operation hash' ho hh).of_attempting attempting
  rw [one, ← result, ← drawn]
  exact reached.resolve

-- What the calls of `request_to` in a run have made of the requests they were given.
def Action.request? : Action ρ → Option (Except RpcError Bytes)
  | .request _ _ req _ => some req
  | _                  => none

def requests (as : List (Action ρ)) : List (Except RpcError Bytes) :=
  as.filterMap Action.request?

theorem requests_concat : requests (as ++ [act]) = requests as ++ act.request?.toList := by
  cases h : act.request? <;> simp [requests, h]

theorem requests_length (r : (machine ρ inner).Run as c) :
    (requests as).length = c.calls.length := by
  induction as, c, r using Machine.Run.induction_on
  case init => rfl
  case step as c act c' r hs ih =>
    rw [requests_concat, List.length_append, ih]
    cases next_step hs <;> try simp [Action.request?, conclude]
    case ended ends => cases ends <;> rfl

-- A call that has not been made has no attempts.
theorem unmade (r : (machine ρ inner).Reachable c) (h : c.calls[k]? = none) :
    c.outcomes k = [] ∧ c.made k = 0 := by
  have other a (ha : a ∈ c.attempts) : a.call ≠ k := by
    rintro rfl
    have ⟨i, hi⟩ := List.getElem?_of_mem ha
    have ⟨call, hc, _⟩ := env_eq_request r hi
    cases h.symm.trans hc
  constructor
  case left  => exact List.filterMap_eq_nil_iff.mpr fun a ha => by simp [outcome?, other a ha]
  case right => exact List.countP_eq_zero.mpr fun a ha => by simp [other a ha]

theorem retries_request {targetNodeId method : String} {fromSlice : Bytes → Except RpcError ρ}
    (r : (machine ρ inner).Reachable c)
    (hn : (machine ρ inner).next c (.request targetNodeId method req fromSlice) = some c')
    (h : c'.calls[c.calls.length]? = some call) :
    Retries inner (inner.rejection req) c' c.calls.length call := by
  have st := next_step hn
  have made := st.made (k := c.calls.length)
  have outcomes := st.outcomes (k := c.calls.length) r <| by rintro _ _ _ _ _ ⟨⟩
  obtain ⟨empty, zero⟩ := unmade r (k := c.calls.length) <| by simp
  obtain ⟨call', rfl, follows⟩ := request_inv hn
  obtain rfl : call' = call := by simpa using h
  unfold Retries
  rw [outcomes, made, empty, zero]
  cases hr : inner.rejection req
  case some => exact ⟨by simpa [hr] using follows, rfl⟩
  case none =>
    rw [hr] at follows
    exact ⟨[], rfl, fun operation hash _ _ => follows operation hash⟩

-- A step keeps up what a call has done by then, unless it is the one that makes the call.
theorem Step.retries (r : (machine ρ inner).Reachable c)
    (hn : (machine ρ inner).next c act = some c') (h : c'.calls[k]? = some call)
    (made : ∀ req, act.request? = some req → k ≠ c.calls.length) :
    ∃ call', c.calls[k]? = some call' ∧
      ∀ rej, Retries inner rej c k call' → Retries inner rej c' k call := by
  have st := next_step hn
  have count : c'.made k = _ := st.made
  have outcomes (other : ∀ i a hash result, c.attempts[i]? = some a →
      Ends inner c i a act hash result → a.call ≠ k) : c'.outcomes k = c.outcomes k :=
    st.outcomes r other
  have keep (hc : c.calls[k]? = some call) (hm : act.isAttemptOf k = false)
      (other : ∀ i a hash result, c.attempts[i]? = some a → Ends inner c i a act hash result →
        a.call ≠ k) :
      ∃ call', c.calls[k]? = some call' ∧
        ∀ rej, Retries inner rej c k call' → Retries inner rej c' k call :=
    ⟨call, hc, fun _ re => re.keep (outcomes other) (by simp [count, hm])⟩
  cases st
  case subscribed | subscribeFailed | take | inboxClosed | ignore | lookup | deliver |
      published =>
    exact keep h rfl (by rintro _ _ _ _ _ ⟨⟩)
  case request req _ call' _ =>
    have hl : k < c.calls.length := by
      have le := (List.getElem?_eq_some_iff.mp h).choose
      have ne := made req rfl
      simp only [List.length_append, List.length_singleton] at le
      omega
    exact keep (by rwa [List.getElem?_append_left hl] at h) rfl (by rintro _ _ _ _ _ ⟨⟩)
  case attempt k' id call' handle ready fresh =>
    rcases List.getElem?_set_cases h with ⟨rfl, rfl⟩ | ⟨hk, h⟩
    case inr => exact keep h (by simp [Action.isAttemptOf, hk.symm]) (by rintro _ _ _ _ _ ⟨⟩)
    case inl =>
      refine ⟨call', handle, fun _ re => ?_⟩
      refine re.move (by simp [ready]) (outcomes <| by rintro _ _ _ _ _ ⟨⟩) ?_
      intro operation hash fo
      obtain ⟨all, reached⟩ := fo.of_ready ready
      exact .attempting rfl (by simp [count, all, Action.isAttemptOf]) reached
  case ended i a hash result handle ends =>
    have count : (c.conclude inner i a hash result).made k = c.made k := by
      rw [count]
      cases ends <;> rfl
    by_cases hk : a.call = k
    case neg =>
      exact ⟨call, by simpa [conclude, hk] using h, fun _ re =>
        re.keep (outcomes_conclude hk handle) count⟩
    case pos =>
      subst hk
      obtain ⟨call', hc, rfl⟩ := by simpa [conclude] using h
      obtain ⟨_, hc', attempting⟩ := attempting_of_live r handle ends.live
      cases hc.symm.trans hc'
      exact ⟨call', hc, fun _ re =>
        re.ended attempting (outcomes_conclude_own r handle ends.live) count⟩
  case wake k' _ _ _ _ _ _ =>
    obtain ⟨call', cfg, loop, handle, sleeping, config, own, he⟩ := wake_inv hn
    rw [he] at h
    rcases List.getElem?_set_cases h with ⟨rfl, rfl⟩ | ⟨hk, h⟩
    · exact ⟨call', handle, fun _ re =>
        re.move (by simp [sleeping]) (outcomes <| by rintro _ _ _ _ _ ⟨⟩) fun _ _ fo =>
          fo.wake sleeping config own⟩
    · exact keep h rfl (by rintro _ _ _ _ _ ⟨⟩)
  case dropIdle k' call' handle idle =>
    rcases List.getElem?_set_cases h with ⟨rfl, rfl⟩ | ⟨hk, h⟩
    · have going result : call'.phase ≠ .returned result := by
        rcases idle with h | h <;> simp [h]
      exact ⟨call', handle, fun _ re =>
        re.dropped going (outcomes <| by rintro _ _ _ _ _ ⟨⟩) count⟩
    · exact keep h rfl (by rintro _ _ _ _ _ ⟨⟩)
  case dropAttempting k' i call' handle attempting =>
    rcases List.getElem?_set_cases h with ⟨rfl, rfl⟩ | ⟨hk, h⟩
    · have going result : call'.phase ≠ .returned result := by simp [attempting]
      exact ⟨call', handle, fun _ re =>
        re.dropped going (outcomes <| by rintro _ _ _ _ _ ⟨⟩) count⟩
    · exact keep h rfl (by rintro _ _ _ _ _ ⟨⟩)

theorem retries (r : (machine ρ inner).Run as c) (h : c.calls[k]? = some call) :
    ∃ req, (requests as)[k]? = some req ∧ Retries inner (inner.rejection req) c k call := by
  induction as, c, r using Machine.Run.induction_on generalizing call
  case init => simp [machine, init] at h
  case step as c act c' r hn ih =>
    by_cases making : k = c.calls.length ∧ act.request? ≠ none
    case neg =>
      obtain ⟨call', hc, step⟩ := Step.retries r.reachable hn h fun req requested own =>
        making ⟨own, by simp [requested]⟩
      obtain ⟨req, hr, re⟩ := ih hc
      obtain ⟨lt, _⟩ := List.getElem?_eq_some_iff.mp hr
      exact ⟨req, by rwa [requests_concat, List.getElem?_append_left lt], step _ re⟩
    case pos =>
      obtain ⟨rfl, requested⟩ := making
      cases act <;> simp only [Action.request?, ne_eq, not_true_eq_false] at requested
      case request target method req fromSlice =>
        refine ⟨req, ?_, retries_request r.reachable hn h⟩
        simp [requests_concat, Action.request?, ← requests_length r]

-- Whatever the other calls and the client task do meanwhile, a call makes the attempts that
-- `retry_with_backoff` makes with their outcomes, and ends the way it does. Those that make none
-- return why: the broker is a server, or the request cannot be serialized.
theorem call_retries (r : (machine ρ inner).Run as c) (h : c.calls[k]? = some call) :
    ∃ req, (requests as)[k]? = some req ∧
      match inner.rejection req with
      | some err => c.made k = 0 ∧ call.phase = .returned (.error err)
      | none =>
        ∀ operation, (c.outcomes k).Begins operation → ∃ hash,
          let trace := retryWithBackoff inner.retryConfig operation hash
          c.made k ≤ trace.operations ∧
            match call.phase with
            | .returned result =>
              c.made k = trace.operations ∧ (c.outcomes k).length = trace.operations ∧
                ∃ last, trace.outcome = some last ∧ result = last.bind call.fromSlice
            | .panicked => c.made k = trace.operations ∧ trace.outcome = none
            | _         => True := by
  have ⟨req, hr, re⟩ := retries r h
  refine ⟨req, hr, ?_⟩
  cases hj : inner.rejection req
  case some err =>
    rw [hj] at re
    exact ⟨re.right, re.left⟩
  case none =>
    rw [hj] at re
    intro operation begins
    have ⟨hashes, length, re⟩ := re
    have ⟨hash, drawn⟩ := List.exists_begins hashes
    have follows := re operation hash begins drawn
    refine ⟨hash, follows.within, ?_⟩
    cases follows
    case returned phase all operations outcome =>
      simp only [phase]
      exact ⟨all.trans operations.symm, operations.symm, _, outcome, rfl⟩
    case panicked phase all operations outcome =>
      simp only [phase]
      exact ⟨all.trans operations.symm, outcome⟩
    case ready phase _ _            => simp [phase]
    case attempting phase _ _       => simp [phase]
    case sleeping phase _ _ _ _ _ _ => simp [phase]
    case dropped phase _            => simp [phase]

-- A client that retries once, and a call of it that gets its response the second time.
def retryingClient : Inner where
  nodeId      := "n"
  mode        := .client
  retryConfig := some { maxAttempts := 1 }

def retriedRequest : List (Action Bytes) :=
  [.subscribed, .request "t" "m" (.ok []) .ok, .attempt 0 "b", .published 0 (.ok ()) 0,
    .timeout 0 0, .wake 0, .attempt 0 "c", .published 1 (.ok ()) 0] ++ loneReceive [1] ++
      [.deliver 1 [1], .respond 1]

def retriedOutcomes : List (Except RpcError Bytes) :=
  [.error retryingClient.timeoutError, .ok [1]]

def responseOf (call : Call Bytes) : Option Bytes :=
  match call.phase with
  | .returned (.ok v) => some v
  | _                 => none

theorem responseOf_eq_some {call : Call Bytes} {v : Bytes} (h : responseOf call = some v) :
    call.phase = .returned (.ok v) := by
  unfold responseOf at h
  split at h
  case h_1 phase => exact Option.some.inj h ▸ phase
  case h_2       => cases h

theorem retried_run :
    ∃ c call v, (machine Bytes retryingClient).Run retriedRequest c ∧ c.calls[0]? = some call ∧
      call.phase = .returned (.ok v) ∧ c.outcomes 0 = retriedOutcomes := by
  have h : (machine Bytes retryingClient |>.exec (.init retryingClient) retriedRequest).any fun c =>
      c.calls[0]?.bind responseOf = some [1] ∧ c.outcomes 0 = retriedOutcomes := by
    decide +kernel
  have ⟨c, run, h⟩ := Option.any_eq_true _ _ |>.mp h
  have ⟨response, outcomes⟩ := of_decide_eq_true h
  have ⟨call, h, returned⟩ := Option.bind_eq_some_iff.mp response
  exact ⟨c, call, [1], run, h, responseOf_eq_some returned, outcomes⟩

theorem call_retries_retried :
    ∃ c call v, (machine Bytes retryingClient).Run retriedRequest c ∧ c.calls[0]? = some call ∧
      call.phase = .returned (.ok v) ∧ ∃ hash,
        let trace := retryWithBackoff retryingClient.retryConfig
          (fun n => retriedOutcomes.getD n (.ok [])) hash
        c.made 0 = trace.operations ∧ trace.operations = 2 ∧
          ∃ last, trace.outcome = some last ∧ .ok v = last.bind call.fromSlice := by
  have ⟨c, call, v, run, h, phase, outcomes⟩ := retried_run
  have begins : (c.outcomes 0).Begins fun n => retriedOutcomes.getD n (.ok []) := by
    intro n result hn
    rw [outcomes] at hn
    simp [hn]
  have ⟨req, hr, re⟩ := call_retries run h
  have first : (requests retriedRequest)[0]? = some (.ok []) := rfl
  cases first.symm.trans hr
  have ⟨hash, _, ended⟩ := re _ begins
  simp only [phase] at ended
  have ⟨made, length, ended⟩ := ended
  exact ⟨c, call, v, run, h, phase, hash, made, by rw [← length, outcomes]; rfl, ended⟩

end Client
end MomRpc
