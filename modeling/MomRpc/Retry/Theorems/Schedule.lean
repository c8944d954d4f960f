import Mathlib.Algebra.Order.BigOperators.Group.List
import MomRpc.Retry.Theorems.Exact

namespace MomRpc

variable {T : Type} {cfg : RetryConfig} {operation : ℕ → Except RpcError T} {hash : ℕ → UInt64}
  {loop : RetryLoop} {trace : Trace T} {h : UInt64} {n i : ℕ} {d jittered : Duration}

theorem applyJitter_bounds (hj : applyJitter h d = some jittered) :
    0.75 * d.secs ≤ jittered.secs ∧ jittered.secs ≤ 1.25 * d.secs := by
  refine ⟨applyJitter_ge hj, ?_⟩
  rw [applyJitter_iff.mp hj, mul_comm]
  refine mul_le_mul_of_nonneg_right ?_ d.nonneg
  exact (jitterMultiplier_le h).trans (by norm_num)

theorem applyJitter_injective {d' : Duration} (hj : applyJitter h d = some jittered)
    (hj' : applyJitter h d' = some jittered) : d = d' := by
  have eq := (applyJitter_iff.mp hj).symm.trans (applyJitter_iff.mp hj')
  exact Duration.ext <| mul_right_cancel₀ (jitterMultiplier_pos h).ne' eq

namespace RetryLoop

-- Before every retry the call sleeps for the jittered delay.
theorem Runs.sleeps (runs : Runs cfg operation hash loop trace) (os : OnSchedule cfg loop)
    (hs : trace.sleeps[i]? = some jittered) :
    loop.attempt.toNat + i < cfg.maxAttempts.toNat ∧
      ∃ d : Duration, d.secs = cfg.delay (loop.attempt.toNat + i) ∧
        applyJitter (hash (loop.attempt.toNat + i)) d = some jittered := by
  induction runs generalizing i
  case finished | overflow | exhausted | jitterPanicked => simp at hs
  case sleepPanicked limit jitter _ =>
    cases i
    case succ => simp at hs
    case zero =>
      cases hs
      exact ⟨limit, _, RetryConfig.delay?_secs os, jitter⟩
  case retried limit jitter after attempt delay _ ih =>
    cases i
    case zero =>
      cases hs
      exact ⟨limit, _, RetryConfig.delay?_secs os, jitter⟩
    case succ i =>
      have := ih (os.next after attempt delay) hs
      rwa [attempt, Nat.add_right_comm] at this

theorem Runs.sleeps_head (runs : Runs cfg operation hash loop trace)
    (limit : loop.attempt.toNat < cfg.maxAttempts.toNat)
    (retryable : Retryable (operation loop.attempt.toNat)) :
    trace.sleeps.head? = applyJitter (hash loop.attempt.toNat) loop.currentDelay := by
  cases runs
  case finished final               => exact absurd retryable final
  case overflow size                =>
    have lt : cfg.maxAttempts.toNat < UInt32.size := cfg.maxAttempts.toNat_lt
    omega
  case exhausted exhausted _        => exact absurd limit exhausted.not_gt
  case jitterPanicked jitter        => exact jitter.symm
  case sleepPanicked jitter _       => exact jitter.symm
  case retried jitter _ _           => exact jitter.symm

theorem init_sleeps (h : ((init cfg).run cfg operation hash).sleeps[i]? = some jittered) :
    i < cfg.maxAttempts.toNat ∧
      ∃ d : Duration, d.secs = cfg.delay i ∧ applyJitter (hash i) d = some jittered := by
  have := (runs cfg operation hash <| init cfg).sleeps onSchedule_init h
  rwa [show (init cfg).attempt.toNat + i = i from Nat.zero_add i] at this

-- The schedule of the documentation: the delay before the `n + 1`-th retry, without its jitter, is
-- `initial_delay * multiplier^n`, capped at `max_delay`.
structure Scheduled (cfg : RetryConfig) (hash : ℕ → UInt64) (trace : Trace T) : Prop where
  within : ∀ n jittered, trace.sleeps[n]? = some jittered →
    0.75 * min (cfg.initialDelay.secs * cfg.multiplier ^ n) cfg.maxDelay.secs ≤ jittered.secs ∧
      jittered.secs ≤ 1.25 * min (cfg.initialDelay.secs * cfg.multiplier ^ n) cfg.maxDelay.secs
  capped : ∀ n jittered, trace.sleeps[n]? = some jittered →
    ∃ d : Duration, applyJitter (hash n) d = some jittered ∧ d.secs ≤ cfg.maxDelay.secs
  total  : (trace.sleeps.map Duration.secs).sum ≤
    1.25 * cfg.maxAttempts.toNat * cfg.maxDelay.secs

-- The call sleeps before a first retry.
def SleepsFirst (cfg : RetryConfig) (operation : ℕ → Except RpcError T)
    (hash : ℕ → UInt64) : Prop :=
  cfg.maxAttempts ≠ 0 ∧ Retryable (operation 0) ∧ applyJitter (hash 0) cfg.initialDelay ≠ none

theorem sleeps_length_le : ((init cfg).run cfg operation hash).sleeps.length ≤
    cfg.maxAttempts.toNat := by
  by_contra gt
  have lt := not_le.mp gt
  exact absurd (init_sleeps <| List.getElem?_eq_getElem lt).left (lt_irrefl _)

theorem sleepsFirst_of_sleeps (h : ((init cfg).run cfg operation hash).sleeps[i]? = some jittered) :
    SleepsFirst cfg operation hash := by
  have runs := runs cfg operation hash (init cfg)
  have ⟨lt, _⟩ := init_sleeps h
  have nonzero : cfg.maxAttempts ≠ 0 := fun hz => by simp [hz] at lt
  generalize (init cfg).run cfg operation hash = trace at runs h
  cases runs
  case finished | overflow | exhausted | jitterPanicked => simp at h
  case sleepPanicked retryable _ jitter _               =>
    exact ⟨nonzero, retryable, by simp [show applyJitter (hash 0) cfg.initialDelay = _ from jitter]⟩
  case retried retryable _ jitter _ _                   =>
    exact ⟨nonzero, retryable, by simp [show applyJitter (hash 0) cfg.initialDelay = _ from jitter]⟩

theorem scheduled_of_capped (hm : 0 ≤ cfg.multiplier)
    (h : cfg.initialDelay.secs ≤ cfg.maxDelay.secs) :
    Scheduled cfg hash ((init cfg).run cfg operation hash) where
  within n jittered hs := by
    obtain ⟨_, d, hd, jitter⟩ := init_sleeps hs
    rw [RetryConfig.delay, Backoff.delay_eq_min_pow cfg.initialDelay.nonneg hm h] at hd
    exact hd ▸ applyJitter_bounds jitter
  capped n jittered hs := by
    obtain ⟨_, d, hd, jitter⟩ := init_sleeps hs
    exact ⟨d, jitter, hd ▸ Backoff.delay_le h⟩
  total := by
    have le : ∀ s ∈ ((init cfg).run cfg operation hash).sleeps.map Duration.secs,
        s ≤ 1.25 * cfg.maxDelay.secs := by
      intro s mem
      obtain ⟨jittered, mem, hs⟩ := List.mem_map.mp mem
      obtain ⟨i, hi⟩ := List.getElem?_of_mem mem
      obtain ⟨_, d, hd, jitter⟩ := init_sleeps hi
      have capped : d.secs ≤ cfg.maxDelay.secs := hd ▸ Backoff.delay_le h
      have := (applyJitter_bounds jitter).right
      linarith
    have sum := List.sum_le_card_nsmul _ _ le
    have length : (((init cfg).run cfg operation hash).sleeps.length : ℚ) ≤
        cfg.maxAttempts.toNat := by exact_mod_cast sleeps_length_le
    rw [nsmul_eq_mul, List.length_map] at sum
    have nonneg := cfg.maxDelay.nonneg
    nlinarith

theorem scheduled_iff (hm : 0 ≤ cfg.multiplier) :
    Scheduled cfg hash ((init cfg).run cfg operation hash) ↔
      (SleepsFirst cfg operation hash → cfg.initialDelay.secs ≤ cfg.maxDelay.secs) := by
  constructor
  case mp =>
    intro scheduled ⟨nonzero, retryable, jitter⟩
    have ⟨jittered, hj⟩ := Option.ne_none_iff_exists'.mp jitter
    have limit : (init cfg).attempt.toNat < cfg.maxAttempts.toNat := by
      exact Nat.pos_of_ne_zero fun hz => nonzero <| UInt32.toNat_inj.mp hz
    have head : ((init cfg).run cfg operation hash).sleeps.head? = some jittered :=
      ((runs cfg operation hash <| init cfg).sleeps_head limit retryable).trans hj
    have ⟨d, hd, capped⟩ := scheduled.capped 0 jittered <| List.head?_eq_getElem? ▸ head
    exact applyJitter_injective hj hd ▸ capped
  case mpr =>
    intro capped
    by_cases first : SleepsFirst cfg operation hash
    case pos => exact scheduled_of_capped hm (capped first)
    case neg =>
      have none : ((init cfg).run cfg operation hash).sleeps = [] :=
        List.eq_nil_iff_forall_not_mem.mpr fun jittered mem =>
          have ⟨_, h⟩ := List.getElem?_of_mem mem
          first <| sleepsFirst_of_sleeps h
      refine ⟨by simp [none], by simp [none], ?_⟩
      have := cfg.maxDelay.nonneg
      simpa [none] using by positivity

end RetryLoop

open RetryLoop

-- The delays follow the documentation exactly if the first one, which is not capped, is not above
-- the cap, or if there is none.
theorem backoff_scheduled (hm : 0 ≤ cfg.multiplier) (operation : ℕ → Except RpcError T)
    (hash : ℕ → UInt64) :
    Scheduled cfg hash (retryWithBackoff (some cfg) operation hash) ↔
      (SleepsFirst cfg operation hash → cfg.initialDelay.secs ≤ cfg.maxDelay.secs) :=
  scheduled_iff hm

def loneConfig : RetryConfig where
  initialDelay := .fromSecs 10

def loneOutcome : ℕ → Except RpcError Unit :=
  fun _ => .error (.transportRetryable "request timeout")

theorem backoff_scheduled_lone :
    Scheduled {} (fun _ => 0) (retryWithBackoff (some {}) loneOutcome fun _ => 0) ↔
      (SleepsFirst {} loneOutcome (fun _ => 0) →
        ({} : RetryConfig).initialDelay.secs ≤ ({} : RetryConfig).maxDelay.secs) :=
  backoff_scheduled (by norm_num) loneOutcome fun _ => 0

-- The first retry comes after ten seconds although no delay is to be longer than five.
theorem first_delay_exceeds_max_delay :
    ¬Scheduled loneConfig (fun _ => 0)
      (retryWithBackoff (some loneConfig) loneOutcome fun _ => 0) := by
  intro scheduled
  have first : SleepsFirst loneConfig loneOutcome fun _ => 0 := by
    refine ⟨by decide, ⟨_, rfl⟩, Duration.fromSecsF64_ne_none_iff.mpr ?_⟩
    norm_num [loneConfig, Duration.fromSecs, show UInt64.toNat 10 = 10 from rfl]
  have le := scheduled_iff (by norm_num [loneConfig]) |>.mp scheduled first
  norm_num [loneConfig, Duration.fromSecs, show UInt64.toNat 10 = 10 from rfl,
    show UInt64.toNat 5 = 5 from rfl] at le

end MomRpc
