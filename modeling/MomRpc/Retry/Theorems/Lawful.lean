import MomRpc.Retry.Nanos
import MomRpc.Retry.Theorems.Loop

namespace MomRpc

-- What holds of the delays in every arithmetic: only a delay of zero is jittered to zero, and it
-- stays zero as long as no conversion panics.
class LawfulDelays (D : Type) {M : outParam Type} [Delays D M] : Prop where
  secs_nonneg    : ∀ d : D, 0 ≤ Delays.secs d
  secs_injective : Function.Injective (Delays.secs (D := D))
  jitter_zero    : ∀ (h : UInt64) (d : D), Delays.secs d = 0 → Delays.applyJitter h d = some d
  zero_of_jitter : ∀ (h : UInt64) (d jittered : D), Delays.applyJitter h d = some jittered →
    Delays.secs jittered = 0 → Delays.secs d = 0
  multiply_zero  : ∀ (d next : D) (m : M), Delays.secs d = 0 → Delays.multiply d m = some next →
    Delays.secs next = 0
  min_zero       : ∀ d cap : D, Delays.secs d = 0 → Delays.secs (Delays.min d cap) = 0

instance : LawfulDelays Duration where
  secs_nonneg d      := d.nonneg
  secs_injective _ _ := Duration.ext
  jitter_zero _ _    := applyJitter_zero
  zero_of_jitter h d jittered hj hz := by
    have le := applyJitter_ge hj
    have nonneg := d.nonneg
    simp only [Delays.secs_duration] at hz ⊢
    linarith
  multiply_zero d next m hz hm := by
    have eq : next.secs = d.secs * m := Duration.fromSecsF64_iff.mp hm
    simp only [Delays.secs_duration] at hz ⊢
    rw [eq, hz, zero_mul]
  min_zero d cap hz := by
    have eq : (d.min cap).secs = min d.secs cap.secs := Duration.min_secs
    simp only [Delays.secs_duration] at hz
    exact eq.trans <| by rw [hz, min_eq_left cap.nonneg]

namespace Nanos

open Binary

variable {d jittered : Nanos} {h : UInt64} {x y : ℚ} {m : Binary}

theorem secs_eq_zero_iff : Delays.secs d = 0 ↔ d.nanos = 0 := by
  simp [Delays.secs]

-- The numbers that are dealt with here lose less than a hundredth when they are rounded.
theorem ge_of_round (normal : 1 / 10 ^ 12 ≤ x) (h : binary64.round x = .finite y) :
    0.99 * x ≤ y := by
  have small : (2 : ℚ) ^ binary64.emin ≤ 1 / 10 ^ 12 := by
    have : (2 : ℚ) ^ binary64.emin ≤ 2 ^ (-40 : ℤ) :=
      zpow_le_zpow_right₀ (by norm_num) (by norm_num [Format.emin, binary64])
    exact this.trans (by norm_num)
  have le := Format.le_of_round (small.trans normal) h
  have precise : (2 : ℚ) ^ (-binary64.precision : ℤ) ≤ 0.01 := by norm_num [binary64]
  nlinarith

theorem round_finite (nonneg : 0 ≤ x) (hx : x ≤ 4) : ∃ y, binary64.round x = .finite y := by
  refine Format.round_finite ?_
  rw [abs_of_nonneg nonneg]
  calc x ≤ 2 ^ (2 : ℤ) := hx.trans (by norm_num)
    _ ≤ 2 ^ binary64.emax := zpow_le_zpow_right₀ (by norm_num) (by norm_num [binary64])

theorem round_unit (nonneg : 0 ≤ x) (hx : x ≤ 1) :
    ∃ y, binary64.round x = .finite y ∧ 0 ≤ y ∧ y ≤ 2 := by
  have ⟨y, hy⟩ := round_finite nonneg (by linarith)
  have small : |x| ≤ 2 ^ (0 : ℤ) := by rwa [abs_of_nonneg nonneg, zpow_zero]
  have lt := Format.abs_lt_of_round (by norm_num [Format.emin, binary64]) small hy
  rw [zero_add, zpow_one] at lt
  exact ⟨y, hy, Format.nonneg_of_round nonneg hy, (le_abs_self y).trans lt.le⟩

-- The factor of the jitter is a number, and does not come near zero.
theorem jitterMultiplier_finite (hash : UInt64) :
    ∃ x, jitterMultiplier hash = .finite x ∧ 0.7 ≤ x := by
  have lt : (hash % 1000).toNat < 1000 := by
    rw [UInt64.toNat_mod]
    exact Nat.mod_lt _ (by decide)
  have le : ((hash % 1000).toNat : ℚ) / 1000 ≤ 1 := by
    rw [div_le_one (by norm_num)]
    exact_mod_cast lt.le
  have ⟨factor, hf, factor_nonneg, factor_le⟩ := round_unit (by positivity) le
  have ⟨half, hh, half_nonneg, half_le⟩ :=
    round_unit (x := factor * 0.5) (by linarith) (by linarith)
  have ⟨sum, hs⟩ := round_finite (x := 0.75 + half) (by linarith) (by linarith)
  refine ⟨sum, ?_, ?_⟩
  · simp only [jitterMultiplier, hf, Format.mul, hh, Format.add, hs]
  · have := ge_of_round (by norm_num at half_nonneg ⊢; linarith) hs
    linarith

theorem asSecsF64_zero (hz : d.nanos = 0) : d.asSecsF64 = .finite 0 := by
  simp [asSecsF64, hz, Format.add]

-- As a number of seconds, a nanosecond does not come near zero either.
theorem le_of_asSecsF64 (hd : d.nanos ≠ 0) (h : d.asSecsF64 = .finite x) :
    0.9 / 10 ^ 9 ≤ x := by
  have ⟨secs, subsec, ha, hb, h⟩ := Format.of_add_eq_finite h
  have secs_nonneg := Format.nonneg_of_round (by positivity) ha
  have subsec_nonneg := Format.nonneg_of_round (by positivity) hb
  have sum : 0.99 / 10 ^ 9 ≤ secs + subsec := by
    by_cases whole : d.nanos / 10 ^ 9 = 0
    case neg =>
      have one : (1 : ℚ) ≤ (d.nanos / 10 ^ 9 : ℕ) := by
        exact_mod_cast Nat.one_le_iff_ne_zero.mpr whole
      have := ge_of_round (by linarith) ha
      linarith
    case pos =>
      have one : (1 : ℚ) / 10 ^ 9 ≤ (d.nanos % 10 ^ 9 : ℕ) / 10 ^ 9 := by
        gcongr
        exact_mod_cast Nat.one_le_iff_ne_zero.mpr (by omega)
      have := ge_of_round (le_trans (by norm_num) one) hb
      linarith
  have := ge_of_round (by linarith) h
  linarith

theorem fromSecsF64_zero : ∃ d, fromSecsF64 (.finite 0) = some d ∧ d.nanos = 0 :=
  ⟨⟨0, by norm_num⟩, by simp [fromSecsF64], rfl⟩

theorem finite_of_fromSecsF64 {secs : Binary} (h : fromSecsF64 secs = some d) :
    ∃ x, secs = .finite x := by
  cases secs
  case finite x => exact ⟨x, rfl⟩
  all_goals cases h

-- What is longer than half a nanosecond is not rounded to nothing.
theorem pos_of_fromSecsF64 (hx : 1 / 2 < x * 10 ^ 9) (h : fromSecsF64 (.finite x) = some d) :
    d.nanos ≠ 0 := by
  unfold fromSecsF64 at h
  dsimp only at h
  split at h <;> cases h
  have := roundEven_pos hx
  dsimp only
  omega

theorem applyJitter_zero (hz : d.nanos = 0) : applyJitter h d = some d := by
  have ⟨x, hx, _⟩ := jitterMultiplier_finite h
  have ⟨d', hd, hz'⟩ := fromSecsF64_zero
  rw [applyJitter, asSecsF64_zero hz, hx, Format.mul, zero_mul, Format.round_zero, hd,
    Nanos.ext (hz'.trans hz.symm)]

theorem zero_of_applyJitter (hj : applyJitter h d = some jittered) (hz : jittered.nanos = 0) :
    d.nanos = 0 := by
  by_contra ne
  have ⟨x, hx, le⟩ := jitterMultiplier_finite h
  rw [applyJitter, hx] at hj
  have ⟨y, hy⟩ := finite_of_fromSecsF64 hj
  have ⟨secs, x', hd, hx', hr⟩ := Format.of_mul_eq_finite hy
  cases hx'
  have product : 0.9 / 10 ^ 9 * 0.7 ≤ secs * x :=
    mul_le_mul (le_of_asSecsF64 ne hd) le (by norm_num) <|
      (le_of_asSecsF64 ne hd).trans' (by norm_num)
  have := ge_of_round (by linarith) hr
  exact pos_of_fromSecsF64 (by linarith) (hy ▸ hj) hz

theorem multiply_zero {next : Nanos} (hz : d.nanos = 0) (h : d.multiply m = some next) :
    next.nanos = 0 := by
  rw [multiply, asSecsF64_zero hz] at h
  cases m
  case finite =>
    have ⟨_, hd, hz⟩ := fromSecsF64_zero
    rw [Format.mul, zero_mul, Format.round_zero, hd] at h
    exact Option.some.inj h ▸ hz
  all_goals cases h

end Nanos

instance : LawfulDelays Nanos where
  secs_nonneg _ := by simp only [Delays.secs]; positivity
  secs_injective a b h := by
    simp only [Delays.secs] at h
    exact Nanos.ext <| by exact_mod_cast (div_left_inj' (by norm_num)).mp h
  jitter_zero h d hz := Nanos.applyJitter_zero (Nanos.secs_eq_zero_iff.mp hz)
  zero_of_jitter h d jittered hj hz :=
    Nanos.secs_eq_zero_iff.mpr <| Nanos.zero_of_applyJitter hj (Nanos.secs_eq_zero_iff.mp hz)
  multiply_zero d next m hz hm :=
    Nanos.secs_eq_zero_iff.mpr <| Nanos.multiply_zero (Nanos.secs_eq_zero_iff.mp hz) hm
  min_zero d cap hz := by
    have hz := Nanos.secs_eq_zero_iff.mp hz
    exact Nanos.secs_eq_zero_iff.mpr <| by simp [Delays.min, Nanos.min, hz]

end MomRpc
