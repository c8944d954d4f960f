import Mathlib.Tactic.NormNum
import MomRpc.Retry

namespace MomRpc

variable {D M T : Type} [Delays D M] {cfg : RetryConfig D} {operation : ℕ → Except RpcError T}
  {hash : ℕ → UInt64} {loop : RetryLoop D} {trace : Trace T D} {h : UInt64} {d : D} {n : ℕ}

def Retryable (result : Except RpcError T) : Prop :=
  ∃ details, result = .error (.transportRetryable details)

namespace RetryConfig

-- The delay before the `n + 1`-th retry, if the multiplications before it have not panicked.
def delay? (cfg : RetryConfig D) : ℕ → Option D
  | 0     => some cfg.initialDelay
  | n + 1 =>
    (cfg.delay? n).bind fun d =>
      (Delays.multiply d cfg.multiplier).map (Delays.min · cfg.maxDelay)

-- The delay before the `n + 1`-th retry remains one while it is jittered and while it is
-- multiplied.
def Converts (cfg : RetryConfig D) (hash : UInt64) (n : ℕ) : Prop :=
  ∃ d, cfg.delay? n = some d ∧ Delays.applyJitter hash d ≠ none ∧
    Delays.multiply d cfg.multiplier ≠ none

theorem converts_iff (hd : cfg.delay? n = some d) :
    cfg.Converts h n ↔
      Delays.applyJitter h d ≠ none ∧ Delays.multiply d cfg.multiplier ≠ none := by
  simp [Converts, hd]

end RetryConfig

namespace RetryLoop

variable {result : Except RpcError T} {jittered : D}

theorem onResult_final (final : ¬Retryable result) :
    loop.onResult cfg h result = .finished result := by
  have body := onResult_body cfg loop h result
  generalize loop.onResult cfg h result = verdict at body ⊢
  cases body
  case finish => rfl
  all_goals exact absurd ⟨_, rfl⟩ final

theorem onResult_overflow (retryable : Retryable result)
    (limit : loop.attempt.toNat + 1 = UInt32.size) : loop.onResult cfg h result = .panicked := by
  obtain ⟨details, rfl⟩ := retryable
  simp [onResult, limit]

theorem onResult_exhausted (retryable : Retryable result)
    (limit : cfg.maxAttempts.toNat ≤ loop.attempt.toNat)
    (room : loop.attempt.toNat + 1 ≠ UInt32.size) :
    loop.onResult cfg h result = .finished result := by
  obtain ⟨details, rfl⟩ := retryable
  have lt := loop.attempt.toNat_lt
  have gt : loop.attempt + 1 > cfg.maxAttempts := by
    rw [gt_iff_lt, UInt32.lt_iff_toNat_lt, UInt32.toNat_add]
    simp [UInt32.size] at *
    omega
  simp [onResult, room, gt]

-- A call from an iteration of its loop on.
inductive Runs (cfg : RetryConfig D) (operation : ℕ → Except RpcError T) (hash : ℕ → UInt64) :
    RetryLoop D → Trace T D → Prop
  | finished {loop : RetryLoop D} (final : ¬Retryable (operation loop.attempt.toNat)) :
    Runs cfg operation hash loop
      { operations := 1, outcome := some <| operation loop.attempt.toNat }
  | overflow {loop : RetryLoop D} (retryable : Retryable (operation loop.attempt.toNat))
    (limit : loop.attempt.toNat + 1 = UInt32.size) :
    Runs cfg operation hash loop { operations := 1, outcome := none }
  | exhausted {loop : RetryLoop D} (retryable : Retryable (operation loop.attempt.toNat))
    (limit : cfg.maxAttempts.toNat ≤ loop.attempt.toNat)
    (room : loop.attempt.toNat + 1 ≠ UInt32.size) :
    Runs cfg operation hash loop
      { operations := 1, outcome := some <| operation loop.attempt.toNat }
  | jitterPanicked {loop : RetryLoop D} (retryable : Retryable (operation loop.attempt.toNat))
    (limit : loop.attempt.toNat < cfg.maxAttempts.toNat)
    (jitter : Delays.applyJitter (hash loop.attempt.toNat) loop.currentDelay = none) :
    Runs cfg operation hash loop { operations := 1, outcome := none }
  | sleepPanicked {loop : RetryLoop D} {jittered : D}
    (retryable : Retryable (operation loop.attempt.toNat))
    (limit : loop.attempt.toNat < cfg.maxAttempts.toNat)
    (jitter : Delays.applyJitter (hash loop.attempt.toNat) loop.currentDelay = some jittered)
    (next : Delays.multiply loop.currentDelay cfg.multiplier = none) :
    Runs cfg operation hash loop { operations := 1, sleeps := [jittered], outcome := none }
  | retried {loop next : RetryLoop D} {jittered nextDelay : D} {rest : Trace T D}
    (retryable : Retryable (operation loop.attempt.toNat))
    (limit : loop.attempt.toNat < cfg.maxAttempts.toNat)
    (jitter : Delays.applyJitter (hash loop.attempt.toNat) loop.currentDelay = some jittered)
    (after : Delays.multiply loop.currentDelay cfg.multiplier = some nextDelay)
    (attempt : next.attempt.toNat = loop.attempt.toNat + 1)
    (delay : next.currentDelay = Delays.min nextDelay cfg.maxDelay)
    (runs : Runs cfg operation hash next rest) :
    Runs cfg operation hash loop {
      operations := rest.operations + 1
      sleeps     := jittered :: rest.sleeps
      outcome    := rest.outcome
    }

theorem runs (cfg : RetryConfig D) (operation : ℕ → Except RpcError T) (hash : ℕ → UInt64)
    (loop : RetryLoop D) : Runs cfg operation hash loop (loop.run cfg operation hash) := by
  by_cases retryable : Retryable (operation loop.attempt.toNat)
  case neg => exact run_finished (onResult_final retryable) ▸ .finished retryable
  by_cases overflow : loop.attempt.toNat + 1 = UInt32.size
  case pos =>
    exact run_panicked (onResult_overflow retryable overflow) ▸ .overflow retryable overflow
  by_cases limit : loop.attempt.toNat < cfg.maxAttempts.toNat
  case neg =>
    have limit := not_lt.mp limit
    rw [run_finished <| onResult_exhausted retryable limit overflow]
    exact .exhausted retryable limit overflow
  have body := onResult_body cfg loop (hash loop.attempt.toNat) (operation loop.attempt.toNat)
  generalize hv : loop.onResult cfg _ _ = verdict at body
  generalize hr : operation loop.attempt.toNat = result at body
  cases body
  case finish final       => exact absurd (hr ▸ retryable) fun h => final _ h.choose_spec
  case exhaust exhausted  => exact absurd limit exhausted.not_gt
  case overflow limit     => exact absurd limit overflow
  case jitterPanic jitter => exact run_panicked hv ▸ .jitterPanicked retryable limit jitter
  case sleep loop' attempt _ delay jitter =>
    cases ha : Delays.multiply loop.currentDelay cfg.multiplier
    case none =>
      have hn : loop'.afterSleep cfg = none := by rw [afterSleep, delay, ha]; rfl
      exact run_sleep_panicked hv hn ▸ .sleepPanicked retryable limit jitter ha
    case some nextDelay =>
      obtain ⟨next, hn, capped⟩ : ∃ next, loop'.afterSleep cfg = some next ∧
          next.currentDelay = Delays.min nextDelay cfg.maxDelay :=
        ⟨_, by rw [afterSleep, delay, ha]; rfl, rfl⟩
      have attempt : next.attempt.toNat = loop.attempt.toNat + 1 := afterSleep_attempt hn ▸ attempt
      rw [run_sleep hv hn]
      exact .retried retryable limit jitter ha attempt capped (runs cfg operation hash next)
termination_by cfg.maxAttempts.toNat - loop.attempt.toNat

theorem Runs.operations_pos (runs : Runs cfg operation hash loop trace) : 0 < trace.operations := by
  cases runs <;> exact Nat.succ_pos _

-- The loop multiplies and caps the delay once for every retry.
def OnSchedule (cfg : RetryConfig D) (loop : RetryLoop D) : Prop :=
  cfg.delay? loop.attempt.toNat = some loop.currentDelay

theorem onSchedule_init : OnSchedule cfg (init cfg) :=
  rfl

theorem OnSchedule.next {next : RetryLoop D} {nextDelay : D} (os : OnSchedule cfg loop)
    (after : Delays.multiply loop.currentDelay cfg.multiplier = some nextDelay)
    (attempt : next.attempt.toNat = loop.attempt.toNat + 1)
    (delay : next.currentDelay = Delays.min nextDelay cfg.maxDelay) : OnSchedule cfg next := by
  rw [OnSchedule, attempt, RetryConfig.delay?, os, Option.bind_some, after, delay]
  rfl

-- The attempts of a call from the `n`-th up to its last one, and what has ended it there.
structure Attempts (cfg : RetryConfig D) (operation : ℕ → Except RpcError T) (hash : ℕ → UInt64)
    (n last : ℕ) (trace : Trace T D) : Prop where
  operations : n + trace.operations = last + 1
  first      : n ≤ last
  within     : last ≤ cfg.maxAttempts.toNat
  retried    : ∀ i, n ≤ i → i < last → Retryable (operation i) ∧ cfg.Converts (hash i) i
  returned   : ∀ result, trace.outcome = some result → result = operation last ∧
    (Retryable (operation last) → last = cfg.maxAttempts.toNat ∧ last + 1 ≠ UInt32.size)
  panicked   : trace.outcome = none → Retryable (operation last) ∧
    (last + 1 = UInt32.size ∨ (last < cfg.maxAttempts.toNat ∧ ¬cfg.Converts (hash last) last))

theorem Runs.attempts (runs : Runs cfg operation hash loop trace) (os : OnSchedule cfg loop)
    (within : loop.attempt.toNat ≤ cfg.maxAttempts.toNat) :
    ∃ last, Attempts cfg operation hash loop.attempt.toNat last trace := by
  have nothing {n i : ℕ} (le : n ≤ i) (lt : i < n) :
      Retryable (operation i) ∧ cfg.Converts (hash i) i :=
    absurd lt le.not_gt
  induction runs
  case finished loop final =>
    exact ⟨_, rfl, le_rfl, within, fun _ => nothing,
      fun _ h => ⟨(Option.some.inj h).symm, fun h => absurd h final⟩, by simp⟩
  case overflow loop retryable limit =>
    exact ⟨_, rfl, le_rfl, within, fun _ => nothing, by simp, fun _ => ⟨retryable, .inl limit⟩⟩
  case exhausted loop retryable limit room =>
    exact ⟨_, rfl, le_rfl, within, fun _ => nothing,
      fun _ h => ⟨(Option.some.inj h).symm, fun _ => ⟨le_antisymm within limit, room⟩⟩, by simp⟩
  case jitterPanicked loop retryable limit jitter =>
    have converts : ¬cfg.Converts (hash loop.attempt.toNat) loop.attempt.toNat :=
      mt (RetryConfig.converts_iff os).mp fun h => h.left jitter
    exact ⟨_, rfl, le_rfl, within, fun _ => nothing, by simp,
      fun _ => ⟨retryable, .inr ⟨limit, converts⟩⟩⟩
  case sleepPanicked loop _ retryable limit jitter next =>
    have converts : ¬cfg.Converts (hash loop.attempt.toNat) loop.attempt.toNat :=
      mt (RetryConfig.converts_iff os).mp fun h => h.right next
    exact ⟨_, rfl, le_rfl, within, fun _ => nothing, by simp,
      fun _ => ⟨retryable, .inr ⟨limit, converts⟩⟩⟩
  case retried loop next _ _ rest retryable limit jitter after attempt delay runs ih =>
    have converts : cfg.Converts (hash loop.attempt.toNat) loop.attempt.toNat :=
      RetryConfig.converts_iff os |>.mpr (by simp [jitter, after])
    have ⟨last, at'⟩ := ih (os.next after attempt delay) (by omega)
    rw [attempt] at at'
    have operations : loop.attempt.toNat + (rest.operations + 1) = last + 1 := by
      have := at'.operations
      omega
    have first := Nat.le_of_succ_le at'.first
    refine ⟨last, operations, first, at'.within, fun i le lt => ?_, at'.returned, at'.panicked⟩
    rcases le.eq_or_lt with rfl | le
    · exact ⟨retryable, converts⟩
    · exact at'.retried i le lt

-- The `n`-th attempt is made if no attempt before it has ended the call.
theorem Attempts.made_iff {last i : ℕ} (at' : Attempts cfg operation hash 0 last trace) :
    i < trace.operations ↔
      i ≤ cfg.maxAttempts.toNat ∧ ∀ j < i, Retryable (operation j) ∧ cfg.Converts (hash j) j := by
  have operations := at'.operations
  constructor
  case mp =>
    intro lt
    have := at'.within
    exact ⟨by omega, fun j hj => at'.retried j (Nat.zero_le _) (by omega)⟩
  case mpr =>
    intro ⟨le, before⟩
    by_contra hn
    have lt : last < i := by omega
    have ⟨retryable, converts⟩ := before last lt
    have size : cfg.maxAttempts.toNat < UInt32.size := cfg.maxAttempts.toNat_lt
    cases ho : trace.outcome
    case none =>
      rcases (at'.panicked ho).right with limit | ⟨_, unfit⟩
      · omega
      · exact unfit converts
    case some result =>
      have ⟨eq, _⟩ := (at'.returned result ho).right retryable
      omega

theorem attempts (cfg : RetryConfig D) (operation : ℕ → Except RpcError T) (hash : ℕ → UInt64) :
    ∃ last, Attempts cfg operation hash 0 last ((init cfg).run cfg operation hash) :=
  (runs cfg operation hash <| init cfg).attempts onSchedule_init (Nat.zero_le _)

end RetryLoop
end MomRpc
