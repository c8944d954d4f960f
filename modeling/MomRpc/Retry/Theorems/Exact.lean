import Mathlib.Tactic.NormNum
import MomRpc.Lib.Backoff
import MomRpc.Retry.Theorems.Completion

namespace MomRpc

variable {T : Type} {cfg : RetryConfig} {operation : ℕ → Except RpcError T} {hash : ℕ → UInt64}
  {trace : Trace T} {h : UInt64} {d : Duration} {n : ℕ}

theorem Duration.fromSecsF64_ne_none_iff {secs : ℚ} :
    Duration.fromSecsF64 secs ≠ none ↔ 0 ≤ secs ∧ secs < 2 ^ 64 := by
  simp [Duration.fromSecsF64]

def jitterMultiplier (hash : UInt64) : ℚ :=
  0.75 + (hash % 1000).toNat / 1000 * 0.5

theorem applyJitter_iff {jittered : Duration} :
    applyJitter h d = some jittered ↔ jittered.secs = d.secs * jitterMultiplier h :=
  Duration.fromSecsF64_iff

theorem jitterMultiplier_ge (hash : UInt64) : 0.75 ≤ jitterMultiplier hash :=
  le_add_of_nonneg_right <| by positivity

theorem jitterMultiplier_pos (hash : UInt64) : 0 < jitterMultiplier hash :=
  lt_of_lt_of_le (by norm_num) (jitterMultiplier_ge hash)

theorem jitterMultiplier_le (hash : UInt64) : jitterMultiplier hash ≤ 1.2495 := by
  have lt : (hash % 1000).toNat < 1000 := by
    rw [UInt64.toNat_mod]
    exact Nat.mod_lt _ (by decide)
  have le : ((hash % 1000).toNat : ℚ) ≤ 999 := by exact_mod_cast Nat.le_of_lt_succ lt
  unfold jitterMultiplier
  linarith

namespace RetryConfig

abbrev delay (cfg : RetryConfig) (n : ℕ) : ℚ :=
  Backoff.delay cfg.initialDelay.secs cfg.multiplier cfg.maxDelay.secs n

-- The delay before the `n + 1`-th retry in closed form.
def preJitter (cfg : RetryConfig) : ℕ → ℚ
  | 0     => cfg.initialDelay.secs
  | n + 1 =>
    min (cfg.initialDelay.secs * cfg.multiplier ^ (n + 1))
      (cfg.maxDelay.secs * min 1 (cfg.multiplier ^ n))

-- The delay before the `n + 1`-th retry remains one while it is jittered and while it is
-- multiplied.
def Fits (cfg : RetryConfig) (hash : UInt64) (n : ℕ) : Prop :=
  cfg.initialDelay.secs = 0 ∨
    (0 ≤ cfg.multiplier ∧ cfg.preJitter n * max cfg.multiplier (jitterMultiplier hash) < 2 ^ 64)

theorem delay_eq_preJitter (hm : 0 ≤ cfg.multiplier) (n : ℕ) : cfg.delay n = cfg.preJitter n := by
  cases n
  case zero => rfl
  case succ => exact Backoff.delay_succ_eq cfg.initialDelay.nonneg hm cfg.maxDelay.nonneg

theorem fits_iff (hd : d.secs = cfg.delay n)
    (hn : n = 0 ∨ cfg.initialDelay.secs = 0 ∨ 0 ≤ cfg.multiplier) :
    cfg.Fits h n ↔
      applyJitter h d ≠ none ∧ Duration.fromSecsF64 (d.secs * cfg.multiplier) ≠ none := by
  have converts : applyJitter h d ≠ none ↔ d.secs * jitterMultiplier h < 2 ^ 64 :=
    Duration.fromSecsF64_ne_none_iff.trans <|
      and_iff_right <| mul_nonneg d.nonneg (jitterMultiplier_pos h).le
  rw [converts, Duration.fromSecsF64_ne_none_iff, Fits]
  by_cases hz : cfg.initialDelay.secs = 0
  case pos =>
    have zero : d.secs = 0 := by rw [hd, delay, hz, Backoff.delay_of_zero cfg.maxDelay.nonneg]
    simp [hz, zero]
  case neg =>
    by_cases hm : 0 ≤ cfg.multiplier
    case pos =>
      rw [← delay_eq_preJitter hm, ← hd, mul_max_of_nonneg _ _ d.nonneg, max_lt_iff]
      simp [hz, hm, mul_nonneg d.nonneg hm, and_comm]
    case neg =>
      obtain rfl := hn.resolve_right (by simp [hz, hm])
      have neg : d.secs * cfg.multiplier < 0 := by
        refine mul_neg_of_pos_of_neg ?_ (not_le.mp hm)
        exact hd ▸ lt_of_le_of_ne cfg.initialDelay.nonneg (Ne.symm hz)
      simp [hz, hm, not_le.mpr neg]

theorem Fits.sign (fits : cfg.Fits h n) : cfg.initialDelay.secs = 0 ∨ 0 ≤ cfg.multiplier :=
  fits.imp_right And.left

theorem delay?_secs (hd : cfg.delay? n = some d) : d.secs = cfg.delay n := by
  induction n generalizing d
  case zero =>
    cases hd
    rfl
  case succ n ih =>
    obtain ⟨d', hd', hd⟩ := Option.bind_eq_some_iff.mp hd
    obtain ⟨next, after, rfl⟩ := Option.map_eq_some_iff.mp hd
    have after : next.secs = d'.secs * cfg.multiplier := Duration.fromSecsF64_iff.mp after
    have capped : (next.min cfg.maxDelay).secs = _ := Duration.min_secs
    rw [after, ih hd'] at capped
    exact capped

-- As long as all delays before it have fit, a delay converts exactly if it fits.
theorem converts_iff_fits (before : ∀ j < n, cfg.Converts (hash j) j ∧ cfg.Fits (hash j) j) :
    cfg.Converts (hash n) n ↔ cfg.Fits (hash n) n := by
  cases n
  case zero => exact (converts_iff rfl).trans (fits_iff rfl (.inl rfl)).symm
  case succ n =>
    have ⟨⟨d', hd', _, next⟩, fits⟩ := before n (Nat.lt_succ_self n)
    have ⟨nextDelay, after⟩ := Option.ne_none_iff_exists'.mp next
    have hd : cfg.delay? (n + 1) = some (nextDelay.min cfg.maxDelay) := by
      rw [delay?, hd', Option.bind_some, after]
      rfl
    exact (converts_iff hd).trans (fits_iff (delay?_secs hd) (.inr fits.sign)).symm

theorem forall_converts_iff :
    (∀ j < n, cfg.Converts (hash j) j) ↔ ∀ j < n, cfg.Fits (hash j) j := by
  induction n
  case zero => simp
  case succ n ih =>
    rw [Nat.forall_lt_succ_right, Nat.forall_lt_succ_right, ih]
    refine and_congr_right fun fits => converts_iff_fits fun j lt => ?_
    exact ⟨ih.mpr fits j lt, fits j lt⟩

end RetryConfig

namespace RetryLoop

-- The `n`-th attempt is made if no attempt before it has ended the call.
theorem Attempts.made_iff_fits {last : ℕ} (at' : Attempts cfg operation hash 0 last trace) :
    n < trace.operations ↔
      n ≤ cfg.maxAttempts.toNat ∧ ∀ j < n, Retryable (operation j) ∧ cfg.Fits (hash j) j := by
  simp only [at'.made_iff, forall_and, RetryConfig.forall_converts_iff]

theorem unhindered_iff : Unhindered cfg operation (fun n => cfg.Converts (hash n) n) ↔
    Unhindered cfg operation fun n => cfg.Fits (hash n) n := by
  have upTo {P : ℕ → Prop} (fits : ∀ n < cfg.maxAttempts.toNat,
      (∀ i ≤ n, Retryable (operation i)) → P n) {n : ℕ} (lt : n < cfg.maxAttempts.toNat)
      (retryable : ∀ i ≤ n, Retryable (operation i)) : ∀ j < n + 1, P j := by
    intro j hj
    have le := Nat.le_of_lt_succ hj
    exact fits j (le.trans_lt lt) fun i hi => retryable i (hi.trans le)
  constructor
  case mp =>
    intro ⟨fits, ends⟩
    refine ⟨fun n lt retryable => ?_, ends⟩
    exact RetryConfig.forall_converts_iff.mp (upTo fits lt retryable) n (Nat.lt_succ_self n)
  case mpr =>
    intro ⟨fits, ends⟩
    refine ⟨fun n lt retryable => ?_, ends⟩
    exact RetryConfig.forall_converts_iff.mpr (upTo fits lt retryable) n (Nat.lt_succ_self n)

end RetryLoop

end MomRpc
