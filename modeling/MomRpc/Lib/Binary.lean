import Mathlib.Algebra.Order.Field.Power
import Mathlib.Algebra.Order.Floor.Ring
import Mathlib.Data.Int.Log
import Mathlib.Data.Rat.Floor
import Mathlib.Tactic.Linarith
import Mathlib.Tactic.NormNum
import Mathlib.Tactic.Positivity

-- The values of binary floating-point arithmetic. No operation below tells the zeros apart.
inductive Binary
  | nan
  | infinite (negative : Bool)
  | finite (value : ℚ)
  deriving DecidableEq

namespace Binary

variable {x y : ℚ}

-- To the nearest integer, and to the even one if there are two of them.
def roundEven (x : ℚ) : ℤ :=
  let n := ⌊x⌋
  if x - n < 1 / 2 ∨ (x - n = 1 / 2 ∧ 2 ∣ n) then n else n + 1

theorem abs_roundEven_sub_le (x : ℚ) : |roundEven x - x| ≤ 1 / 2 := by
  have below := Int.floor_le x
  have above := Int.lt_floor_add_one x
  unfold roundEven
  rw [abs_le]
  dsimp only
  split
  case isTrue h =>
    have : x - ⌊x⌋ ≤ 1 / 2 := by rcases h with h | ⟨h, _⟩ <;> exact h.le
    constructor <;> linarith
  case isFalse h =>
    have : 1 / 2 ≤ x - ⌊x⌋ := not_lt.mp fun lt => h (.inl lt)
    push_cast
    constructor <;> linarith

theorem roundEven_nonneg (h : 0 ≤ x) : 0 ≤ roundEven x := by
  have floor := Int.floor_nonneg.mpr h
  unfold roundEven
  dsimp only
  split <;> omega

theorem roundEven_pos (h : 1 / 2 < x) : 0 < roundEven x := by
  have near := (abs_le.mp <| abs_roundEven_sub_le x).left
  exact_mod_cast (by linarith : (0 : ℚ) < roundEven x)

@[simp]
theorem roundEven_zero : roundEven 0 = 0 := by
  simp [roundEven]

-- A format by its precision in bits and its greatest exponent.
structure Format where
  precision     : ℕ
  emax          : ℤ
  precision_pos : 0 < precision
  emax_pos      : 0 < emax

namespace Format

variable {F : Format}

-- The least exponent of a normal number.
def emin (F : Format) : ℤ :=
  1 - F.emax

-- The distance between the numbers of the format which are as large as `x`.
def unit (F : Format) (x : ℚ) : ℚ :=
  2 ^ (max (Int.log 2 |x|) F.emin - (F.precision - 1))

-- To the nearest number of the format, ties to even.
def round (F : Format) (x : ℚ) : Binary :=
  let y := roundEven (x / F.unit x) * F.unit x
  if |y| < 2 ^ (F.emax + 1) then .finite y else .infinite (y < 0)

def add (F : Format) : Binary → Binary → Binary
  | .finite x, .finite y     => F.round (x + y)
  | .infinite a, .infinite b => if a = b then .infinite a else .nan
  | .infinite a, .finite _   => .infinite a
  | .finite _, .infinite b   => .infinite b
  | .nan, _ | _, .nan        => .nan

def mul (F : Format) : Binary → Binary → Binary
  | .finite x, .finite y     => F.round (x * y)
  | .infinite a, .infinite b => .infinite (a ^^ b)
  | .infinite a, .finite y   => if y = 0 then .nan else .infinite (a ^^ y < 0)
  | .finite x, .infinite b   => if x = 0 then .nan else .infinite (x < 0 ^^ b)
  | .nan, _ | _, .nan        => .nan

theorem of_add_eq_finite {a b : Binary} (h : F.add a b = .finite y) :
    ∃ x z, a = .finite x ∧ b = .finite z ∧ F.round (x + z) = .finite y := by
  unfold add at h
  split at h
  case h_1 => exact ⟨_, _, rfl, rfl, h⟩
  case h_2 => split at h <;> cases h
  all_goals cases h

theorem of_mul_eq_finite {a b : Binary} (h : F.mul a b = .finite y) :
    ∃ x z, a = .finite x ∧ b = .finite z ∧ F.round (x * z) = .finite y := by
  unfold mul at h
  split at h
  case h_1       => exact ⟨_, _, rfl, rfl, h⟩
  case h_3 | h_4 => split at h <;> cases h
  all_goals cases h

theorem unit_pos : 0 < F.unit x := by
  unfold unit
  positivity

theorem abs_sub_le_of_round (h : F.round x = .finite y) : |y - x| ≤ F.unit x / 2 := by
  unfold round at h
  dsimp only at h
  split at h <;> cases h
  have near := abs_roundEven_sub_le (x / F.unit x)
  have pos : 0 < F.unit x := unit_pos
  have eq : roundEven (x / F.unit x) * F.unit x - x =
      (roundEven (x / F.unit x) - x / F.unit x) * F.unit x := by
    rw [sub_mul, div_mul_cancel₀ _ pos.ne']
  rw [eq, abs_mul, abs_of_pos pos]
  linarith [mul_le_mul_of_nonneg_right near pos.le]

@[simp]
theorem round_zero : F.round 0 = .finite 0 := by
  have pos : (0 : ℚ) < 2 ^ (F.emax + 1) := by positivity
  simp [round, pos]

theorem nonneg_of_round (hx : 0 ≤ x) (h : F.round x = .finite y) : 0 ≤ y := by
  unfold round at h
  dsimp only at h
  split at h <;> cases h
  have pos : 0 < F.unit x := unit_pos
  have nonneg : 0 ≤ roundEven (x / F.unit x) := roundEven_nonneg (div_nonneg hx pos.le)
  exact mul_nonneg (by exact_mod_cast nonneg) pos.le

-- Numbers that are not too small are only changed in the digits beyond the precision.
theorem unit_le (normal : 2 ^ F.emin ≤ |x|) : F.unit x ≤ |x| * 2 ^ (1 - F.precision : ℤ) := by
  have pos : 0 < |x| := lt_of_lt_of_le (by positivity) normal
  have le : F.emin ≤ Int.log 2 |x| := (Int.zpow_le_iff_le_log (by norm_num) pos).mp normal
  rw [unit, max_eq_left le, sub_eq_add_neg, neg_sub, zpow_add₀ (by norm_num)]
  exact mul_le_mul_of_nonneg_right (Int.zpow_log_le_self (by norm_num) pos) (by positivity)

theorem le_of_round (hx : 2 ^ F.emin ≤ x) (h : F.round x = .finite y) :
    x * (1 - 2 ^ (-F.precision : ℤ)) ≤ y := by
  have pos : 0 < x := lt_of_lt_of_le (by positivity) hx
  have near := (abs_le.mp <| abs_sub_le_of_round h).left
  have unit := unit_le (F := F) (x := x) (by rwa [abs_of_pos pos])
  rw [abs_of_pos pos, sub_eq_add_neg, zpow_add₀ (by norm_num), zpow_one] at unit
  linarith

theorem unit_le_of_abs_le {k : ℤ} (hz : x ≠ 0) (hk : F.emin ≤ k) (hx : |x| ≤ 2 ^ k) :
    F.unit x ≤ 2 ^ k := by
  have le := (Int.zpow_log_le_self (b := 2) (by norm_num) (abs_pos.mpr hz)).trans hx
  have log : Int.log 2 |x| ≤ k :=
    (zpow_le_zpow_iff_right₀ (by norm_num : (1 : ℚ) < 2)).mp (by exact_mod_cast le)
  have := F.precision_pos
  exact zpow_le_zpow_right₀ (by norm_num) (by omega)

-- Rounding less than doubles the power of two that bounds a number.
theorem abs_roundEven_mul_unit_lt {k : ℤ} (hk : F.emin ≤ k) (hx : |x| ≤ 2 ^ k) :
    |roundEven (x / F.unit x) * F.unit x| < 2 ^ (k + 1) := by
  by_cases hz : x = 0
  case pos =>
    have pos : (0 : ℚ) < 2 ^ (k + 1) := by positivity
    simp [hz, pos]
  case neg =>
    have pos : 0 < F.unit x := unit_pos
    have near := abs_roundEven_sub_le (x / F.unit x)
    have small := unit_le_of_abs_le hz hk hx
    have eq : roundEven (x / F.unit x) * F.unit x =
        (roundEven (x / F.unit x) - x / F.unit x) * F.unit x + x := by
      rw [sub_mul, div_mul_cancel₀ _ pos.ne', sub_add_cancel]
    rw [eq, zpow_add₀ (by norm_num), zpow_one]
    refine (abs_add_le _ _).trans_lt ?_
    rw [abs_mul, abs_of_pos pos]
    linarith [mul_le_mul_of_nonneg_right near pos.le]

theorem abs_lt_of_round {k : ℤ} (hk : F.emin ≤ k) (hx : |x| ≤ 2 ^ k)
    (h : F.round x = .finite y) : |y| < 2 ^ (k + 1) := by
  unfold round at h
  dsimp only at h
  split at h <;> cases h
  exact abs_roundEven_mul_unit_lt hk hx

theorem round_finite (hx : |x| ≤ 2 ^ F.emax) : ∃ y, F.round x = .finite y := by
  have le : F.emin ≤ F.emax := by
    have := F.emax_pos
    unfold emin
    omega
  exact ⟨_, if_pos <| abs_roundEven_mul_unit_lt le hx⟩

end Format

def binary64 : Format where
  precision     := 53
  emax          := 1023
  precision_pos := by norm_num
  emax_pos      := by norm_num

end Binary
