import Mathlib.Algebra.Order.Ring.Basic
import Mathlib.Tactic.Ring

namespace Backoff

variable {α : Type*} [CommSemiring α] [LinearOrder α] {a m c : α} {n : ℕ}

-- The delays that begin with `a`, where each one but the first is the one before it multiplied by
-- `m` and then capped by `c`.
def delay (a m c : α) : ℕ → α
  | 0     => a
  | n + 1 => min (delay a m c n * m) c

@[simp]
theorem delay_zero : delay a m c 0 = a :=
  rfl

theorem delay_succ : delay a m c (n + 1) = min (delay a m c n * m) c :=
  rfl

theorem delay_shift : delay a m c (n + 1) = delay (min (a * m) c) m c n := by
  induction n
  case zero      => rfl
  case succ n hi => rw [delay_succ, hi, ← delay_succ]

theorem delay_le (h : a ≤ c) : delay a m c n ≤ c := by
  cases n
  case zero => exact h
  case succ => exact min_le_right ..

theorem delay_of_zero (hc : 0 ≤ c) : delay 0 m c n = 0 := by
  induction n
  case zero      => rfl
  case succ n hi => simp [delay_succ, hi, hc]

variable [IsStrictOrderedRing α]

-- The cap commutes with the multiplications as long as it is not exceeded in the first place.
theorem delay_eq_min_pow (ha : 0 ≤ a) (hm : 0 ≤ m) (h : a ≤ c) :
    delay a m c n = min (a * m ^ n) c := by
  have hc : 0 ≤ c := ha.trans h
  induction n
  case zero => simp [h]
  case succ n hi =>
    rw [delay_succ, hi, min_mul_of_nonneg _ _ hm, mul_assoc, ← pow_succ, min_assoc]
    rcases le_total 1 m with hm₁ | hm₁
    case inl => rw [min_eq_right <| le_mul_of_one_le_right hc hm₁]
    case inr =>
      have le : a * m ^ (n + 1) ≤ c * m :=
        mul_le_mul h (pow_le_of_le_one hm hm₁ n.succ_ne_zero) (pow_nonneg hm _) hc
      have lc : c * m ≤ c := mul_le_of_le_one_right hc hm₁
      rw [min_eq_left lc, min_eq_left le, min_eq_left (le.trans lc)]

-- A first delay above the cap is capped by the multiplications that follow it.
theorem delay_succ_eq (ha : 0 ≤ a) (hm : 0 ≤ m) (hc : 0 ≤ c) :
    delay a m c (n + 1) = min (a * m ^ (n + 1)) (c * min 1 (m ^ n)) := by
  rw [delay_shift, delay_eq_min_pow (le_min (mul_nonneg ha hm) hc) hm (min_le_right ..),
    min_mul_of_nonneg _ _ (pow_nonneg hm n), mul_assoc, ← pow_succ', min_assoc,
    min_comm (c * m ^ n), mul_min_of_nonneg _ _ hc, mul_one]

-- The largest of the delays is the first one or the last one.
theorem delay_le_peak {k : ℕ} (ha : 0 ≤ a) (hm : 0 ≤ m) (hc : 0 ≤ c) (h : n ≤ k) :
    delay a m c n ≤ max a (min (a * m ^ k) c) := by
  cases n
  case zero => exact le_max_left ..
  case succ n =>
    rw [delay_succ_eq ha hm hc]
    rcases le_total 1 m with hm₁ | hm₁
    case inl =>
      refine le_max_of_le_right <| min_le_min ?_ (mul_le_of_le_one_right hc <| min_le_left ..)
      exact mul_le_mul_of_nonneg_left (pow_le_pow_right₀ hm₁ h) ha
    case inr =>
      exact le_max_of_le_left <| min_le_of_left_le <| mul_le_of_le_one_right ha <|
        pow_le_one₀ hm hm₁

theorem peak_eq_delay (ha : 0 ≤ a) (hm : 0 ≤ m) (hc : 0 ≤ c) (k : ℕ) :
    max a (min (a * m ^ k) c) = delay a m c 0 ∨ max a (min (a * m ^ k) c) = delay a m c k := by
  rcases le_total (min (a * m ^ k) c) a with h | h
  case inl => exact .inl <| max_eq_left h
  case inr =>
    cases k
    case zero => exact .inl <| by simp
    case succ k =>
      rw [max_eq_right h, delay_succ_eq ha hm hc]
      rcases le_total 1 m with hm₁ | hm₁
      case inl => exact .inr <| by rw [min_eq_left <| one_le_pow₀ hm₁, mul_one]
      case inr =>
        have le : a * m ^ (k + 1) ≤ a := mul_le_of_le_one_right ha <| pow_le_one₀ hm hm₁
        exact .inl <| le_antisymm (min_le_of_left_le le) h

end Backoff
