import Mathlib.Algebra.Order.Field.Basic
import Mathlib.Algebra.Order.Field.Rat
import Mathlib.Tactic.Linarith
import MomRpc.Error

namespace MomRpc

-- Seconds in exact arithmetic. The bound is that of the seconds counter, a `u64`.
@[ext]
structure Duration where
  secs    : ℚ
  nonneg  : 0 ≤ secs
  bounded : secs < 2 ^ 64
  deriving DecidableEq

namespace Duration

theorem toNat_lt (n : UInt64) : (n.toNat : ℚ) < 2 ^ 64 := by
  exact_mod_cast n.toNat_lt

def fromSecs (secs : UInt64) : Duration where
  secs    := secs.toNat
  nonneg  := Nat.cast_nonneg _
  bounded := toNat_lt secs

def fromMillis (millis : UInt64) : Duration where
  secs    := millis.toNat / 1000
  nonneg  := div_nonneg (Nat.cast_nonneg _) (by norm_num)
  bounded := (div_le_self (Nat.cast_nonneg _) (by norm_num)).trans_lt (toNat_lt millis)

-- The conversion panics on a number of seconds that no duration can have.
def fromSecsF64 (secs : ℚ) : Option Duration :=
  if h : 0 ≤ secs ∧ secs < 2 ^ 64 then
    some ⟨secs, h.left, h.right⟩
  else
    none

protected def min (a b : Duration) : Duration :=
  if a.secs ≤ b.secs then a else b

theorem fromSecsF64_iff {secs : ℚ} {d : Duration} : fromSecsF64 secs = some d ↔ d.secs = secs := by
  simp only [fromSecsF64, Option.dite_none_right_eq_some, Option.some.injEq]
  constructor
  case mp  => rintro ⟨_, rfl⟩; rfl
  case mpr => rintro rfl; exact ⟨⟨d.nonneg, d.bounded⟩, rfl⟩

@[simp]
theorem min_secs {a b : Duration} : (a.min b).secs = min a.secs b.secs := by
  unfold Duration.min
  split <;> simp_all [le_of_lt]

end Duration

def applyJitter (hash : UInt64) (delay : Duration) : Option Duration :=
  let randomFactor : ℚ := (hash % 1000).toNat / 1000
  let jitterMultiplier := 0.75 + randomFactor * 0.5
  Duration.fromSecsF64 (delay.secs * jitterMultiplier)

theorem applyJitter_ge {hash : UInt64} {delay jittered : Duration}
    (h : applyJitter hash delay = some jittered) : 0.75 * delay.secs ≤ jittered.secs := by
  rw [Duration.fromSecsF64_iff.mp h, mul_comm]
  refine mul_le_mul_of_nonneg_left ?_ delay.nonneg
  have : (0 : ℚ) ≤ (hash % 1000).toNat := Nat.cast_nonneg _
  linarith

theorem applyJitter_zero {hash : UInt64} {delay : Duration} (h : delay.secs = 0) :
    applyJitter hash delay = some delay := by
  simp [applyJitter, Duration.fromSecsF64_iff, h]

-- The durations and multipliers of `retry_with_backoff`, and what it does with them: `multiply` is
-- the conversion of the product to a duration. A conversion which panics is `none`.
class Delays (D : Type) (M : outParam Type) where
  secs        : D → ℚ
  fromSecs    : UInt64 → D
  fromMillis  : UInt64 → D
  two         : M
  applyJitter : UInt64 → D → Option D
  multiply    : D → M → Option D
  min         : D → D → D

instance : Delays Duration ℚ where
  secs         := Duration.secs
  fromSecs     := .fromSecs
  fromMillis   := .fromMillis
  two          := 2
  applyJitter  := applyJitter
  multiply d m := Duration.fromSecsF64 (d.secs * m)
  min          := Duration.min

namespace Delays

@[simp]
theorem secs_duration (d : Duration) : secs d = d.secs :=
  rfl

@[simp]
theorem fromSecs_duration (secs : UInt64) : (fromSecs secs : Duration) = .fromSecs secs :=
  rfl

@[simp]
theorem fromMillis_duration (millis : UInt64) :
    (fromMillis millis : Duration) = .fromMillis millis :=
  rfl

@[simp]
theorem two_duration : two Duration = (2 : ℚ) :=
  rfl

end Delays

structure RetryConfig (D : Type := Duration) {M : Type} [Delays D M] where
  maxAttempts  : UInt32 := 3
  multiplier   : M      := Delays.two D
  initialDelay : D      := Delays.fromMillis 100
  maxDelay     : D      := Delays.fromSecs 5

-- The local variables of `retry_with_backoff`.
structure RetryLoop (D : Type := Duration) where
  attempt      : UInt32 := 0
  currentDelay : D

namespace RetryLoop

variable {D M T : Type} [Delays D M]

inductive Verdict (D T : Type)
  | finished (result : Except RpcError T)
  | sleep (jitteredDelay : D) (loop : RetryLoop D)
  | panicked

-- The body of the loop, up to its `sleep(..)`. The overflow of `attempt` panics, as it does in
-- every build with overflow checks.
def onResult (cfg : RetryConfig D) (loop : RetryLoop D) (hash : UInt64) :
    Except RpcError T → Verdict D T
  | .ok result                           => .finished (.ok result)
  | .error (.transportRetryable details) =>
    if loop.attempt.toNat + 1 = UInt32.size then
      .panicked
    else if loop.attempt + 1 > cfg.maxAttempts then
      .finished <| .error <| .transportRetryable details
    else
      match Delays.applyJitter hash loop.currentDelay with
      | none               => .panicked
      | some jitteredDelay => .sleep jitteredDelay { loop with attempt := loop.attempt + 1 }
  | .error err => .finished (.error err)

-- The rest of the body, `none` if it panics.
def afterSleep (cfg : RetryConfig D) (loop : RetryLoop D) : Option (RetryLoop D) :=
  Delays.multiply loop.currentDelay cfg.multiplier |>.map fun nextDelay =>
    { loop with currentDelay := Delays.min nextDelay cfg.maxDelay }

def init (cfg : RetryConfig D) : RetryLoop D where
  currentDelay := cfg.initialDelay

-- All that the body of the loop can do.
inductive Body (cfg : RetryConfig D) (loop : RetryLoop D) (hash : UInt64) :
    Except RpcError T → Verdict D T → Prop
  | finish {result} (final : ∀ details, result ≠ .error (.transportRetryable details)) :
    Body cfg loop hash result (.finished result)
  | exhaust {details} (limit : cfg.maxAttempts.toNat ≤ loop.attempt.toNat) :
    Body cfg loop hash (.error (.transportRetryable details))
      (.finished (.error (.transportRetryable details)))
  | overflow {details} (limit : loop.attempt.toNat + 1 = UInt32.size) :
    Body cfg loop hash (.error (.transportRetryable details)) .panicked
  | jitterPanic {details} (jitter : Delays.applyJitter hash loop.currentDelay = none) :
    Body cfg loop hash (.error (.transportRetryable details)) .panicked
  | sleep {details jitteredDelay} {loop' : RetryLoop D}
    (attempt : loop'.attempt.toNat = loop.attempt.toNat + 1)
    (limit : loop'.attempt.toNat ≤ cfg.maxAttempts.toNat)
    (delay : loop'.currentDelay = loop.currentDelay)
    (jitter : Delays.applyJitter hash loop.currentDelay = some jitteredDelay) :
    Body cfg loop hash (.error (.transportRetryable details)) (.sleep jitteredDelay loop')

theorem onResult_body (cfg : RetryConfig D) (loop : RetryLoop D) (hash : UInt64)
    (result : Except RpcError T) :
    Body cfg loop hash result (loop.onResult cfg hash result) := by
  unfold onResult
  split
  case h_1 => exact .finish nofun
  case h_3 h => exact .finish fun details hd => h details (Except.error.inj hd)
  case h_2 details =>
    have hl := loop.attempt.toNat_lt
    split
    case isTrue h => exact .overflow h
    case isFalse h =>
      have ha : (loop.attempt + 1).toNat = loop.attempt.toNat + 1 := by
        rw [UInt32.toNat_add]
        exact Nat.mod_eq_of_lt <| by simp [UInt32.size] at *; omega
      split
      case isTrue hm => exact .exhaust <| by have := UInt32.lt_iff_toNat_lt.mp hm; omega
      case isFalse hm =>
        replace hm := Nat.le_of_not_lt <| mt UInt32.lt_iff_toNat_lt.mpr hm
        split
        case h_1 hj => exact .jitterPanic hj
        case h_2 hj => exact .sleep ha hm rfl hj

theorem afterSleep_attempt {cfg : RetryConfig D} {loop loop' : RetryLoop D}
    (h : loop.afterSleep cfg = some loop') : loop'.attempt = loop.attempt := by
  obtain ⟨_, _, rfl⟩ := Option.map_eq_some_iff.mp h
  rfl

theorem sleep_attempt {cfg : RetryConfig D} {loop loop' : RetryLoop D} {hash : UInt64}
    {result : Except RpcError T} {jitteredDelay : D}
    (h : loop.onResult cfg hash result = .sleep jitteredDelay loop') :
    loop'.attempt.toNat = loop.attempt.toNat + 1 ∧
      loop'.attempt.toNat ≤ cfg.maxAttempts.toNat := by
  cases h ▸ onResult_body cfg loop hash result
  exact ⟨‹_›, ‹_›⟩

end RetryLoop

-- What one call of `retry_with_backoff` has done; its outcome is `none` if it panicked.
structure Trace (T : Type) (D : Type := Duration) where
  operations : ℕ
  sleeps     : List D := []
  outcome    : Option (Except RpcError T)

-- The `n`-th entry of `operation` is the outcome of its `n`-th call.
def RetryLoop.run {D M T : Type} [Delays D M] (cfg : RetryConfig D)
    (operation : ℕ → Except RpcError T) (hash : ℕ → UInt64) (loop : RetryLoop D) : Trace T D :=
  let n := loop.attempt.toNat
  match _hb : loop.onResult cfg (hash n) (operation n) with
  | .finished result           => { operations := 1, outcome := result }
  | .panicked                  => { operations := 1, outcome := none }
  | .sleep jitteredDelay loop' =>
    match _hs : loop'.afterSleep cfg with
    | none      => { operations := 1, sleeps := [jitteredDelay], outcome := none }
    | some next =>
      let rest := next.run cfg operation hash
      { operations := rest.operations + 1
        sleeps     := jitteredDelay :: rest.sleeps
        outcome    := rest.outcome }
termination_by cfg.maxAttempts.toNat - loop.attempt.toNat
decreasing_by
  have ⟨_, _⟩ := sleep_attempt _hb
  rw [afterSleep_attempt _hs]
  omega

section Run

variable {D M T : Type} [Delays D M] {cfg : RetryConfig D} {operation : ℕ → Except RpcError T}
  {hash : ℕ → UInt64} {loop loop' next : RetryLoop D} {result : Except RpcError T}
  {jitteredDelay : D}

namespace RetryLoop

theorem run_finished
    (h : loop.onResult cfg (hash loop.attempt.toNat) (operation loop.attempt.toNat) =
      .finished result) :
    loop.run cfg operation hash = { operations := 1, outcome := result } := by
  rw [run]
  split <;> simp_all

theorem run_panicked
    (h : loop.onResult cfg (hash loop.attempt.toNat) (operation loop.attempt.toNat) = .panicked) :
    loop.run cfg operation hash = { operations := 1, outcome := none } := by
  rw [run]
  split <;> simp_all

theorem run_sleep_panicked
    (h : loop.onResult cfg (hash loop.attempt.toNat) (operation loop.attempt.toNat) =
      .sleep jitteredDelay loop')
    (hs : loop'.afterSleep cfg = none) :
    loop.run cfg operation hash =
      { operations := 1, sleeps := [jitteredDelay], outcome := none } := by
  rw [run]
  split <;> try simp_all
  split <;> simp_all

theorem run_sleep
    (h : loop.onResult cfg (hash loop.attempt.toNat) (operation loop.attempt.toNat) =
      .sleep jitteredDelay loop')
    (hs : loop'.afterSleep cfg = some next) :
    loop.run cfg operation hash =
      { operations := (next.run cfg operation hash).operations + 1
        sleeps     := jitteredDelay :: (next.run cfg operation hash).sleeps
        outcome    := (next.run cfg operation hash).outcome } := by
  rw [run]
  split <;> try simp_all
  split <;> simp_all

end RetryLoop
end Run

def retryWithBackoff {D M T : Type} [Delays D M] (retryConfig : Option (RetryConfig D))
    (operation : ℕ → Except RpcError T) (hash : ℕ → UInt64) : Trace T D :=
  match retryConfig with
  | none     => { operations := 1, outcome := operation 0 }
  | some cfg => (RetryLoop.init cfg).run cfg operation hash

end MomRpc
