import MomRpc.Broker.Budget
import MomRpc.Retry.Theorems.Lawful

namespace MomRpc

variable {D M ρ : Type} [Delays D M] {inner : Inner D} {timeout : D} {schedule : Schedule D}
  {cfg : RetryConfig D} {req : Except RpcError Bytes} {fromSlice : Bytes → Except RpcError ρ}
  {n : ℕ}

namespace Schedule

theorem EndsAtOnce.not_expires [LawfulDelays D] (h : schedule.EndsAtOnce n) :
    ¬schedule.Expires timeout n := by
  intro ⟨published, late⟩
  have ⟨delay, response, reply, hz⟩ := h published
  exact late ⟨delay, response, reply, hz ▸ LawfulDelays.secs_nonneg timeout⟩

end Schedule

namespace Inner

theorem awaitResponse_inTime {delay : D} {response : Option Bytes}
    (h : Delays.secs delay ≤ Delays.secs timeout) :
    inner.awaitResponse timeout (some (delay, response)) =
      (delay, response.elim (.error closedError) .ok) := by
  simp [awaitResponse, h]

theorem awaitResponse_silent {reply : Reply D} (h : ¬InTime timeout reply) :
    inner.awaitResponse timeout reply = (timeout, .error inner.timeoutError) := by
  unfold awaitResponse
  split
  case h_2 => rfl
  case h_1 delay response => simp_all [InTime]

theorem timeoutError_retry (hc : inner.retryConfig = some cfg) :
    inner.timeoutError =
      .transportRetryable "request timeout waiting for response, will retry" := by
  simp [timeoutError, hc]

theorem requestToInner_expired (h : schedule.Expires timeout n) :
    inner.requestToInnerWithTimeout timeout schedule n = .error inner.timeoutError := by
  rw [requestToInnerWithTimeout, h.left, awaitResponse_silent h.right]
  rfl

-- The only attempts to be retried are those that get no response in time.
theorem requestToInner_retryable_iff (hc : inner.retryConfig = some cfg) :
    Retryable (inner.requestToInnerWithTimeout timeout schedule n) ↔
      schedule.Expires timeout n := by
  constructor
  case mpr => exact fun h => ⟨_, by rw [requestToInner_expired h, timeoutError_retry hc]⟩
  case mp  =>
    intro ⟨details, he⟩
    rw [requestToInnerWithTimeout] at he
    cases published : schedule.published n
    case error err =>
      rw [published] at he
      cases he
      exact absurd published <| schedule.terminal n details
    case ok =>
      refine ⟨published, fun ⟨delay, response, reply, hd⟩ => ?_⟩
      rw [published, reply, awaitResponse_inTime hd] at he
      cases response <;> cases he

section Waits

variable {k : ℕ} {jittered : D} {sleeps : List D} {outcome : Option (Except RpcError ρ)}

theorem responseWait_expired (h : schedule.Expires timeout n) :
    inner.responseWait timeout schedule n = Delays.secs timeout := by
  simp [responseWait, h.left, awaitResponse_silent h.right]

theorem waited_once : inner.waited timeout schedule n { operations := 1, outcome } =
    inner.responseWait timeout schedule n := by
  simp [waited]

theorem waited_cons :
    inner.waited timeout schedule n
        { operations := k + 1, sleeps := jittered :: sleeps, outcome } =
      inner.responseWait timeout schedule n + Delays.secs jittered +
        inner.waited timeout schedule (n + 1) { operations := k, sleeps, outcome } := by
  simp only [waited, List.range'_succ, List.map_cons, List.sum_cons]
  ring

theorem givesUp_once :
    GivesUp timeout schedule n { operations := 1, sleeps, outcome } ↔
      schedule.Expires timeout n := by
  constructor
  case mpr => exact fun h => ⟨n, rfl, le_rfl, h⟩
  case mp  =>
    intro ⟨last, eq, _, h⟩
    obtain rfl : last = n := by simpa using eq.symm
    exact h

theorem givesUp_cons (pos : 0 < k) :
    GivesUp timeout schedule n { operations := k + 1, sleeps := jittered :: sleeps, outcome } ↔
      GivesUp timeout schedule (n + 1) { operations := k, sleeps, outcome } := by
  refine exists_congr fun last => ?_
  dsimp only
  rw [← and_assoc, ← and_assoc]
  refine and_congr_left fun _ => ?_
  omega

-- An attempt that does not expire ends without a wait only if there is nothing to wait for.
theorem responseWait_eq_zero_iff (live : ¬schedule.Expires timeout n) :
    inner.responseWait timeout schedule n = 0 ↔ schedule.EndsAtOnce n := by
  rw [responseWait, Schedule.EndsAtOnce]
  cases published : schedule.published n
  case error => simp
  case ok =>
    obtain ⟨delay, response, reply, hd⟩ : InTime timeout (schedule.replies n) := by
      by_contra late
      exact live ⟨published, late⟩
    simp [reply, awaitResponse_inTime hd]

variable [LawfulDelays D]

theorem responseWait_nonneg (inner : Inner D) (timeout : D) (schedule : Schedule D) (n : ℕ) :
    0 ≤ inner.responseWait timeout schedule n := by
  unfold responseWait
  split
  · exact le_rfl
  · exact LawfulDelays.secs_nonneg _

theorem waited_nonneg (inner : Inner D) (timeout : D) (schedule : Schedule D) (n : ℕ)
    (trace : Trace ρ D) : 0 ≤ inner.waited timeout schedule n trace := by
  refine add_nonneg (List.sum_nonneg ?_) (List.sum_nonneg ?_)
  all_goals
    intro _ h
    obtain ⟨_, _, rfl⟩ := List.mem_map.mp h
  · exact responseWait_nonneg ..
  · exact LawfulDelays.secs_nonneg _

theorem responseWait_le (inner : Inner D) (timeout : D) (schedule : Schedule D) (n : ℕ) :
    inner.responseWait timeout schedule n ≤ Delays.secs timeout := by
  unfold responseWait awaitResponse
  split
  case h_1 => exact LawfulDelays.secs_nonneg _
  case h_2 =>
    split
    · split
      · assumption
      · exact le_rfl
    · exact le_rfl

end Waits

-- The rest of a call that waits no more and does not give up.
def Free (inner : Inner D) (timeout : D) (schedule : Schedule D) (n : ℕ) (trace : Trace ρ D) :
    Prop :=
  inner.waited timeout schedule n trace = 0 ∧ ¬GivesUp timeout schedule n trace

section Free

variable {trace : Trace Bytes D} {loop : RetryLoop D} {hash : ℕ → UInt64}

theorem free_once {outcome : Option (Except RpcError ρ)} :
    inner.Free timeout schedule n { operations := 1, outcome } ↔
      inner.responseWait timeout schedule n = 0 ∧ ¬schedule.Expires timeout n := by
  rw [Free, waited_once, givesUp_once]

theorem free_cons [LawfulDelays D] {k : ℕ} {jittered : D} {sleeps : List D}
    {outcome : Option (Except RpcError ρ)} (expired : schedule.Expires timeout n) (pos : 0 < k) :
    inner.Free timeout schedule n
        { operations := k + 1, sleeps := jittered :: sleeps, outcome } ↔
      Delays.secs timeout = 0 ∧ Delays.secs jittered = 0 ∧
        inner.Free timeout schedule (n + 1) { operations := k, sleeps, outcome } := by
  have h₁ := LawfulDelays.secs_nonneg timeout
  have h₂ := LawfulDelays.secs_nonneg jittered
  have h₃ := waited_nonneg inner timeout schedule (n + 1) { operations := k, sleeps, outcome }
  rw [Free, Free, waited_cons, responseWait_expired expired, givesUp_cons pos,
    add_eq_zero_iff_of_nonneg (by positivity) h₃, add_eq_zero_iff_of_nonneg h₁ h₂]
  tauto

-- A delay of zero remains the same through a whole call.
theorem next_eq_initial [LawfulDelays D] {next : D} (zero : Delays.secs cfg.initialDelay = 0)
    (after : Delays.multiply cfg.initialDelay cfg.multiplier = some next) :
    Delays.min next cfg.maxDelay = cfg.initialDelay := by
  refine LawfulDelays.secs_injective ?_
  rw [zero]
  exact LawfulDelays.min_zero _ _ <| LawfulDelays.multiply_zero _ _ _ zero after

-- Without delays, the remaining attempts of a call wait for nothing but the responses.
theorem free_run [LawfulDelays D] (hc : inner.retryConfig = some cfg)
    (zero : Delays.secs cfg.initialDelay = 0)
    (product : Delays.multiply cfg.initialDelay cfg.multiplier ≠ none)
    (runs : loop.Runs cfg (inner.requestToInnerWithTimeout timeout schedule) hash trace)
    (still : loop.currentDelay = cfg.initialDelay)
    (within : loop.attempt.toNat ≤ cfg.maxAttempts.toNat) :
    inner.Free timeout schedule loop.attempt.toNat trace ↔
      schedule.EndsAtOnce loop.attempt.toNat ∨ (Delays.secs timeout = 0 ∧
        ∃ j, loop.attempt.toNat ≤ j ∧ j ≤ cfg.maxAttempts.toNat ∧
          ¬schedule.Expires timeout j) := by
  have last {n : ℕ} (limit : cfg.maxAttempts.toNat ≤ n) (expired : schedule.Expires timeout n) :
      ¬(schedule.EndsAtOnce n ∨ (Delays.secs timeout = 0 ∧
        ∃ j, n ≤ j ∧ j ≤ cfg.maxAttempts.toNat ∧ ¬schedule.Expires timeout j)) := by
    rintro (atOnce | ⟨_, j, hj, hm, live⟩)
    · exact atOnce.not_expires expired
    · exact live <| Nat.le_antisymm hj (hm.trans limit) ▸ expired
  have jitter_some (h : UInt64) : Delays.applyJitter h cfg.initialDelay = some cfg.initialDelay :=
    LawfulDelays.jitter_zero h _ zero
  induction runs
  case finished loop final =>
    have live := mt (requestToInner_retryable_iff hc).mpr final
    rw [free_once, responseWait_eq_zero_iff live]
    constructor
    case mp  => exact fun h => .inl h.left
    case mpr =>
      rintro (atOnce | ⟨instant, _⟩)
      · exact ⟨atOnce, live⟩
      · have le := responseWait_le inner timeout schedule loop.attempt.toNat
        have none : inner.responseWait timeout schedule loop.attempt.toNat = 0 :=
          le_antisymm (instant ▸ le) (responseWait_nonneg ..)
        exact ⟨responseWait_eq_zero_iff live |>.mp none, live⟩
  case overflow loop retryable limit =>
    have expired := requestToInner_retryable_iff hc |>.mp retryable
    have size : cfg.maxAttempts.toNat < UInt32.size := cfg.maxAttempts.toNat_lt
    exact iff_of_false (fun free => (free_once.mp free).right expired) (last (by omega) expired)
  case exhausted loop retryable limit room =>
    have expired := requestToInner_retryable_iff hc |>.mp retryable
    exact iff_of_false (fun free => (free_once.mp free).right expired) (last limit expired)
  case jitterPanicked loop retryable limit jitter =>
    rw [still, jitter_some] at jitter
    cases jitter
  case sleepPanicked loop _ retryable limit jitter after =>
    exact absurd (still ▸ after) product
  case retried loop next jittered nextDelay rest retryable limit jitter after attempt delay runs
      ih =>
    have expired := requestToInner_retryable_iff hc |>.mp retryable
    rw [still, jitter_some] at jitter
    cases jitter
    rw [still] at after
    have ih : _ ↔ _ := ih (delay.trans <| next_eq_initial zero after) (by omega)
    rw [attempt] at ih
    rw [free_cons expired runs.operations_pos, ih]
    constructor
    case mp  =>
      rintro ⟨instant, _, atOnce | ⟨_, j, hj, hm, live⟩⟩
      · exact .inr ⟨instant, _, Nat.le_succ _, limit, atOnce.not_expires⟩
      · exact .inr ⟨instant, j, Nat.le_of_succ_le hj, hm, live⟩
    case mpr =>
      rintro (atOnce | ⟨instant, j, hj, hm, live⟩)
      · exact absurd expired atOnce.not_expires
      · have ne : j ≠ loop.attempt.toNat := by
          rintro rfl
          exact live expired
        exact ⟨instant, zero, .inr ⟨instant, j, by omega, hm, live⟩⟩

end Free

-- The waits of a call whose first attempt expires: nothing is left of its timeout then.
def RetriesAtOnce (cfg : RetryConfig D) (timeout : D) (schedule : Schedule D) : Prop :=
  Delays.secs cfg.initialDelay = 0 ∧ Delays.multiply cfg.initialDelay cfg.multiplier ≠ none ∧
    ((1 ≤ cfg.maxAttempts.toNat ∧ schedule.EndsAtOnce 1) ∨
      (Delays.secs timeout = 0 ∧ ∃ j ≤ cfg.maxAttempts.toNat, ¬schedule.Expires timeout j))

-- Whether the waits of a call fit into its timeout depends on its first two attempts, as long as it
-- may wait at all.
def BudgetKept (inner : Inner D) (timeout : D) (req : Except RpcError Bytes)
    (schedule : Schedule D) : Prop :=
  inner.rejection req ≠ none ∨ ¬schedule.Expires timeout 0 ∨
    ∀ cfg, inner.retryConfig = some cfg → RetriesAtOnce cfg timeout schedule

section Within

variable {trace : Trace Bytes D} {hash : ℕ → UInt64}

-- A call with retries never gives up with `Timeout`.
theorem withinBudget_retrying (hc : inner.retryConfig = some cfg) {last : ℕ}
    (at' : RetryLoop.Attempts cfg (inner.requestToInnerWithTimeout timeout schedule) hash 0 last
      trace) :
    inner.WithinBudget timeout schedule (trace.decode fromSlice) ↔
      inner.waited timeout schedule 0 trace ≤ Delays.secs timeout ∧
        ¬GivesUp timeout schedule 0 trace := by
  refine and_congr_right fun _ => ⟨fun h gives => ?_, fun h gives => absurd gives h⟩
  have outcome := h gives
  obtain ⟨last', eq, _, expired⟩ := gives
  obtain rfl : last' = last := Nat.succ_injective <| eq.symm.trans at'.operations
  obtain ⟨result, ho, he⟩ := Option.map_eq_some_iff.mp outcome
  rw [(at'.returned result ho).left, requestToInner_expired expired, timeoutError_retry hc] at he
  cases he

theorem withinBudget_retry [LawfulDelays D] (hc : inner.retryConfig = some cfg)
    (expired : schedule.Expires timeout 0) :
    inner.WithinBudget timeout schedule
        (((RetryLoop.init cfg).run cfg (inner.requestToInnerWithTimeout timeout schedule)
          hash).decode fromSlice) ↔
      RetriesAtOnce cfg timeout schedule := by
  have ⟨_, at'⟩ := RetryLoop.attempts cfg (inner.requestToInnerWithTimeout timeout schedule) hash
  rw [withinBudget_retrying hc at']
  have runs := RetryLoop.runs cfg (inner.requestToInnerWithTimeout timeout schedule) hash
    (.init cfg)
  generalize (RetryLoop.init cfg).run cfg _ hash = trace at runs ⊢
  have retryable := requestToInner_retryable_iff hc |>.mpr expired
  have jitter_some (zero : Delays.secs cfg.initialDelay = 0) (h : UInt64) :=
    LawfulDelays.jitter_zero h _ zero
  cases runs
  case finished final => exact absurd retryable final
  case overflow limit => cases limit
  case exhausted limit room =>
    refine iff_of_false (fun h => h.right <| givesUp_once.mpr expired) ?_
    rintro ⟨_, _, ⟨le, _⟩ | ⟨_, j, le, live⟩⟩
    · exact absurd le <| not_le.mpr <| Nat.lt_succ_of_le limit
    · exact live <| Nat.le_zero.mp (le.trans limit) ▸ expired
  case jitterPanicked limit jitter =>
    refine iff_of_false (fun h => h.right <| givesUp_once.mpr expired) fun ⟨zero, _⟩ => ?_
    cases (jitter_some zero _).symm.trans jitter
  case sleepPanicked limit jitter after =>
    refine iff_of_false (fun h => h.right <| givesUp_once.mpr expired) fun ⟨_, product, _⟩ => ?_
    exact product after
  case retried next jittered nextDelay rest delay runs _ limit jitter after attempt =>
    replace attempt : next.attempt.toNat = 1 := attempt
    have nonneg := waited_nonneg inner timeout schedule 1 rest
    have sleep := LawfulDelays.secs_nonneg jittered
    rw [waited_cons, responseWait_expired expired, givesUp_cons runs.operations_pos]
    change _ + inner.waited timeout schedule 1 rest ≤ _ ∧ ¬GivesUp timeout schedule 1 rest ↔ _
    have product : Delays.multiply cfg.initialDelay cfg.multiplier ≠ none := by
      rw [show Delays.multiply cfg.initialDelay _ = _ from after]
      exact Option.some_ne_none _
    have free (zero : Delays.secs cfg.initialDelay = 0) := by
      have still := delay.trans <| next_eq_initial zero after
      exact free_run hc zero product runs still (attempt ▸ limit)
    rw [attempt] at free
    constructor
    case mp  =>
      intro ⟨within, live⟩
      have zero := LawfulDelays.zero_of_jitter _ _ _ jitter (by linarith)
      refine ⟨zero, product, ?_⟩
      rcases free zero |>.mp ⟨by linarith, live⟩ with atOnce | ⟨instant, j, _, le, live⟩
      · exact .inl ⟨limit, atOnce⟩
      · exact .inr ⟨instant, j, le, live⟩
    case mpr =>
      intro ⟨zero, _, h⟩
      cases (jitter_some zero _).symm.trans jitter
      have ⟨waits, live⟩ : inner.Free timeout schedule 1 rest := by
        refine free zero |>.mpr ?_
        rcases h with ⟨_, atOnce⟩ | ⟨instant, j, le, live⟩
        · exact .inl atOnce
        · have ne : j ≠ 0 := by
            rintro rfl
            exact live expired
          exact .inr ⟨instant, j, Nat.one_le_iff_ne_zero.mpr ne, le, live⟩
      exact ⟨by linarith, live⟩

-- A single attempt waits no longer than its timeout.
theorem withinBudget_once [LawfulDelays D] {outcome : Option (Except RpcError ρ)}
    (h : schedule.Expires timeout 0 → outcome = some (.error .timeout)) :
    inner.WithinBudget timeout schedule { operations := 1, outcome } :=
  ⟨waited_once.trans_le <| responseWait_le inner timeout schedule 0,
    fun gives => h <| givesUp_once.mp gives⟩

theorem withinBudget [LawfulDelays D] (inner : Inner D) (timeout : D)
    (req : Except RpcError Bytes) (fromSlice : Bytes → Except RpcError ρ) (schedule : Schedule D) :
    inner.WithinBudget timeout schedule
        (inner.requestToWithTimeout timeout req fromSlice schedule) ↔
      inner.BudgetKept timeout req schedule := by
  have refused {outcome : Option (Except RpcError ρ)} :
      inner.WithinBudget timeout schedule { operations := 0, outcome } := by
    refine ⟨?_, fun ⟨last, eq, _⟩ => absurd eq.symm (Nat.succ_ne_zero last)⟩
    simpa [waited] using LawfulDelays.secs_nonneg timeout
  unfold requestToWithTimeout BudgetKept rejection
  cases inner.mode.requests
  case false => exact iff_of_true refused (.inl <| by simp)
  case true  =>
    cases req
    case error err => exact iff_of_true refused (.inl <| by simp)
    case ok        =>
      simp only [ne_eq, not_true_eq_false, false_or, ↓reduceIte]
      by_cases expired : schedule.Expires timeout 0
      case neg =>
        refine iff_of_true ?_ (.inl expired)
        cases hc : inner.retryConfig
        case none     => exact withinBudget_once fun h => absurd h expired
        case some cfg =>
          have final := mt (requestToInner_retryable_iff hc).mp expired
          rw [retryWithBackoff, RetryLoop.run_finished (RetryLoop.onResult_final final)]
          exact withinBudget_once fun h => absurd h expired
      case pos =>
        simp only [expired, not_true_eq_false, false_or]
        cases hc : inner.retryConfig
        case some cfg => simpa [retryWithBackoff] using withinBudget_retry hc expired
        case none     =>
          refine iff_of_true (withinBudget_once fun _ => ?_) (by simp)
          rw [retryWithBackoff, requestToInner_expired expired, timeoutError, hc]
          rfl

end Within

-- In the arithmetic of the code, for every timeout and for the configured one.
theorem withinBudget_iff (inner : Inner Nanos) (req : Except RpcError Bytes)
    (fromSlice : Bytes → Except RpcError ρ) (schedule : Schedule Nanos) :
    (∀ timeout, inner.WithinBudget timeout schedule
        (inner.requestToWithTimeout timeout req fromSlice schedule) ↔
      inner.BudgetKept timeout req schedule) ∧
    (inner.WithinBudget inner.requestTotalTimeout schedule
        (inner.requestTo req fromSlice schedule) ↔
      inner.BudgetKept inner.requestTotalTimeout req schedule) :=
  ⟨fun timeout => withinBudget inner timeout req fromSlice schedule,
    withinBudget inner inner.requestTotalTimeout req fromSlice schedule⟩

def unansweredInner : Inner Nanos where
  nodeId              := "n"
  mode                := .client
  retryConfig         := some {}
  requestTotalTimeout := .fromSecs 1

def unanswered : Schedule Nanos where
  published _    := .ok ()
  replies _      := none
  hash _         := 0
  terminal _ _ h := by cases h

-- With the default retries and no response at all, the first retry already exceeds the timeout.
theorem retries_exceed_budget :
    ¬unansweredInner.WithinBudget (.fromSecs 1) unanswered
        (unansweredInner.requestToWithTimeout (.fromSecs 1) (.ok []) .ok unanswered) ∧
      ¬unansweredInner.WithinBudget unansweredInner.requestTotalTimeout unanswered
        (unansweredInner.requestTo (.ok []) .ok unanswered) := by
  have expired : unanswered.Expires (.fromSecs 1) 0 := ⟨rfl, by rintro ⟨_, _, h, _⟩; cases h⟩
  have exceeds : ¬unansweredInner.BudgetKept (.fromSecs 1) (.ok []) unanswered := by
    rintro (rejected | live | retries)
    · exact rejected rfl
    · exact live expired
    · have ⟨zero, _⟩ := retries {} rfl
      rw [Nanos.secs_eq_zero_iff] at zero
      cases zero
  exact ⟨mt (withinBudget ..).mp exceeds, mt (withinBudget ..).mp exceeds⟩

end Inner
end MomRpc
