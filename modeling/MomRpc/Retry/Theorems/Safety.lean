import MomRpc.Broker.Builder
import MomRpc.Retry.Theorems.Exact

namespace MomRpc

variable {T : Type} {cfg : RetryConfig} {operation : ℕ → Except RpcError T} {hash : ℕ → UInt64}
  {loop : RetryLoop} {secs : ℚ}

namespace RetryLoop

-- The arguments of `Duration::from_secs_f64` from an iteration of the loop on.
inductive Converts (cfg : RetryConfig) (operation : ℕ → Except RpcError T) (hash : ℕ → UInt64) :
    RetryLoop → ℚ → Prop
  | jitter {loop : RetryLoop} (retryable : Retryable (operation loop.attempt.toNat))
    (limit : loop.attempt.toNat < cfg.maxAttempts.toNat) :
    Converts cfg operation hash loop
      (loop.currentDelay.secs * jitterMultiplier (hash loop.attempt.toNat))
  | nextDelay {loop loop' : RetryLoop} {jittered : Duration}
    (sleep : loop.onResult cfg (hash loop.attempt.toNat) (operation loop.attempt.toNat) =
      .sleep jittered loop') :
    Converts cfg operation hash loop (loop'.currentDelay.secs * cfg.multiplier)
  | retried {loop loop' next : RetryLoop} {jittered : Duration} {secs : ℚ}
    (sleep : loop.onResult cfg (hash loop.attempt.toNat) (operation loop.attempt.toNat) =
      .sleep jittered loop')
    (after : loop'.afterSleep cfg = some next)
    (later : Converts cfg operation hash next secs) :
    Converts cfg operation hash loop secs

theorem Converts.inDomain (converts : Converts cfg operation hash loop secs)
    (completes : (loop.run cfg operation hash).outcome ≠ none) : 0 ≤ secs ∧ secs < 2 ^ 64 := by
  induction converts
  case jitter loop retryable limit =>
    refine Duration.fromSecsF64_ne_none_iff.mp fun jitter => ?_
    have runs := runs cfg operation hash loop
    generalize loop.run cfg operation hash = trace at runs completes
    cases runs
    case finished final                 => exact final retryable
    case overflow | jitterPanicked      => exact completes rfl
    case exhausted exhausted _          => exact limit.not_ge exhausted
    case sleepPanicked jittered _       => cases jittered.symm.trans jitter
    case retried jittered _ _           => cases jittered.symm.trans jitter
  case nextDelay loop loop' jittered sleep =>
    refine Duration.fromSecsF64_ne_none_iff.mp fun next => ?_
    have panics : loop'.afterSleep cfg = none := Option.map_eq_none_iff.mpr next
    rw [run_sleep_panicked sleep panics] at completes
    exact completes rfl
  case retried sleep after _ ih => exact ih <| by rwa [run_sleep sleep after] at completes

-- Neither a conversion nor the counter panics, so that the call ends with a result.
def Safe (cfg : RetryConfig) (operation : ℕ → Except RpcError T) (hash : ℕ → UInt64) : Prop :=
  (∀ secs, Converts cfg operation hash (init cfg) secs → 0 ≤ secs ∧ secs < 2 ^ 64) ∧
    ∃ result, (retryWithBackoff (some cfg) operation hash).outcome = some result

theorem safe_iff : Safe cfg operation hash ↔
    Unhindered cfg operation fun n => cfg.Fits (hash n) n := by
  rw [← unhindered_iff, ← completes_iff]
  refine ⟨And.right, fun completes => ⟨fun secs converts => converts.inDomain ?_, completes⟩⟩
  have ⟨_, ho⟩ := completes
  simp [ho]

end RetryLoop

open RetryLoop

theorem retries_safely (cfg : RetryConfig) (operation : ℕ → Except RpcError T)
    (hash : ℕ → UInt64) : Safe cfg operation hash ↔
      Unhindered cfg operation fun n => cfg.Fits (hash n) n :=
  safe_iff

def loneTransport : TransportPtr where
  kind := .memory
  base := {
    transportId   := "a"
    mode          := .client
    requestQueue  := none
    responseQueue := "responses"
  }

-- The builder accepts a negative multiplier, with which the first retry panics.
theorem negative_multiplier_panics :
    ∃ cfg, (RpcBrokerBuilder.new loneTransport [.retryMultiplier (-1)]).build.retryConfig =
      some cfg ∧
      ¬Safe cfg (fun _ => (.error (.transportRetryable "request timeout") : Except RpcError Unit))
        fun _ => 0 := by
  refine ⟨_, rfl, fun safe => ?_⟩
  have fits := (safe_iff.mp safe).fits 0 (by decide) fun _ _ => ⟨_, rfl⟩
  have sign : (Duration.fromMillis 100).secs = 0 ∨ (0 : ℚ) ≤ -1 := fits.sign
  norm_num [Duration.fromMillis] at sign
  cases sign

section Always

theorem jitterMultiplier_999 : jitterMultiplier 999 = 1.2495 := by
  have mod : (999 % 1000 : UInt64).toNat = 999 := by decide
  norm_num [jitterMultiplier, mod]

theorem fits_of_peak {k n : ℕ} {h : UInt64} (le : n ≤ k)
    (sign : cfg.initialDelay.secs = 0 ∨ 0 ≤ cfg.multiplier)
    (peak : max cfg.initialDelay.secs
        (min (cfg.initialDelay.secs * cfg.multiplier ^ k) cfg.maxDelay.secs) *
      max cfg.multiplier 1.2495 < 2 ^ 64) : cfg.Fits h n := by
  rcases sign with hz | hm
  case inl => exact .inl hz
  case inr =>
    refine .inr ⟨hm, peak.trans_le' ?_⟩
    rw [← RetryConfig.delay_eq_preJitter hm]
    refine mul_le_mul ?_ (max_le_max le_rfl <| jitterMultiplier_le h) ?_ ?_
    · exact Backoff.delay_le_peak cfg.initialDelay.nonneg hm cfg.maxDelay.nonneg le
    · exact le_max_of_le_left hm
    · exact le_max_of_le_left cfg.initialDelay.nonneg

-- The configs with which no call can panic in exact arithmetic, whatever comes of its attempts.
theorem always_completes_iff : (∀ (operation : ℕ → Except RpcError T) hash,
      ∃ result, (retryWithBackoff (some cfg) operation hash).outcome = some result) ↔
    cfg.maxAttempts = 0 ∨
      (cfg.maxAttempts.toNat + 1 ≠ UInt32.size ∧
        (cfg.initialDelay.secs = 0 ∨ 0 ≤ cfg.multiplier) ∧
        max cfg.initialDelay.secs
            (min (cfg.initialDelay.secs * cfg.multiplier ^ (cfg.maxAttempts.toNat - 1))
              cfg.maxDelay.secs) *
          max cfg.multiplier 1.2495 < 2 ^ 64) := by
  have zero : cfg.maxAttempts = 0 ↔ cfg.maxAttempts.toNat = 0 := by
    rw [← UInt32.toNat_inj]
    rfl
  rw [zero, or_iff_not_imp_left]
  constructor
  case mp =>
    intro completes some
    have unhindered := unhindered_iff.mp <| completes_iff.mp <|
      completes (fun _ => .error (.transportRetryable "request timeout")) fun _ => 999
    have fits (n : ℕ) (lt : n < cfg.maxAttempts.toNat) : cfg.Fits 999 n :=
      unhindered.fits n lt fun _ _ => ⟨_, rfl⟩
    refine ⟨fun size => ?_, (fits 0 (by omega)).sign, ?_⟩
    · have ⟨_, _, final⟩ := unhindered.ends size
      exact final ⟨_, rfl⟩
    · have bound (n : ℕ) (lt : n < cfg.maxAttempts.toNat) :
          cfg.initialDelay.secs = 0 ∨
            (0 ≤ cfg.multiplier ∧ cfg.delay n * max cfg.multiplier 1.2495 < 2 ^ 64) :=
        (fits n lt).imp_right fun ⟨hm, ht⟩ =>
          ⟨hm, by rwa [RetryConfig.delay_eq_preJitter hm, ← jitterMultiplier_999]⟩
      rcases bound 0 (by omega) with hz | ⟨hm, first⟩
      · simp [hz, cfg.maxDelay.nonneg]
      · rcases Backoff.peak_eq_delay cfg.initialDelay.nonneg hm cfg.maxDelay.nonneg
          (cfg.maxAttempts.toNat - 1) with peak | peak <;> rw [peak]
        · exact first
        · rcases bound _ (Nat.sub_one_lt some) with hz | ⟨_, last⟩
          · simp [hz, Backoff.delay_of_zero cfg.maxDelay.nonneg]
          · exact last
  case mpr =>
    intro h operation hash
    refine completes_iff.mpr <| unhindered_iff.mpr ⟨fun n lt _ => ?_, fun size => ?_⟩
    · have ⟨_, sign, peak⟩ := h (by omega)
      exact fits_of_peak (Nat.le_sub_one_of_lt lt) sign peak
    · exact absurd size (h <| by simp [UInt32.size] at size; omega).left

end Always
end MomRpc
