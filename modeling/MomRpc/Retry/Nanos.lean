import MomRpc.Lib.Binary
import MomRpc.Retry

namespace MomRpc

open Binary

-- A duration as the standard library stores it: a `u64` of seconds and the nanoseconds beyond them.
@[ext]
structure Nanos where
  nanos   : ℕ
  bounded : nanos < 2 ^ 64 * 10 ^ 9

namespace Nanos

def fromSecs (secs : UInt64) : Nanos where
  nanos   := secs.toNat * 10 ^ 9
  bounded := Nat.mul_lt_mul_of_pos_right secs.toNat_lt (by norm_num)

def fromMillis (millis : UInt64) : Nanos where
  nanos   := millis.toNat * 10 ^ 6
  bounded := by
    have := millis.toNat_lt
    omega

protected def min (a b : Nanos) : Nanos :=
  if a.nanos ≤ b.nanos then a else b

def asSecsF64 (d : Nanos) : Binary :=
  binary64.add (binary64.round (d.nanos / 10 ^ 9 : ℕ))
    (binary64.round ((d.nanos % 10 ^ 9 : ℕ) / 10 ^ 9))

-- The conversion rounds to nanoseconds. It panics on what is negative, too large or not finite.
def fromSecsF64 : Binary → Option Nanos
  | .finite secs =>
    let nanos := (roundEven (secs * 10 ^ 9)).toNat
    if h : 0 ≤ secs ∧ nanos < 2 ^ 64 * 10 ^ 9 then some ⟨nanos, h.right⟩ else none
  | _ => none

def jitterMultiplier (hash : UInt64) : Binary :=
  let randomFactor := binary64.round ((hash % 1000).toNat / 1000)
  binary64.add (.finite 0.75) (binary64.mul randomFactor (.finite 0.5))

def applyJitter (hash : UInt64) (delay : Nanos) : Option Nanos :=
  fromSecsF64 (binary64.mul delay.asSecsF64 (jitterMultiplier hash))

-- The multiplier is an `f32`, whose conversion to an `f64` is exact.
def multiply (delay : Nanos) (multiplier : Binary) : Option Nanos :=
  fromSecsF64 (binary64.mul delay.asSecsF64 multiplier)

end Nanos

-- The seconds are a number that, once rounded to nanoseconds, is the length of a duration.
def Nanos.InDomain (secs : Binary) : Prop :=
  ∃ x, secs = .finite x ∧ 0 ≤ x ∧ roundEven (x * 10 ^ 9) < 2 ^ 64 * 10 ^ 9

theorem Nanos.fromSecsF64_ne_none_iff {secs : Binary} :
    fromSecsF64 secs ≠ none ↔ InDomain secs := by
  cases secs
  case nan | infinite => simp [fromSecsF64, InDomain]
  case finite x =>
    have nonneg (h : 0 ≤ x) : 0 ≤ roundEven (x * 10 ^ 9) := roundEven_nonneg (by positivity)
    simp only [fromSecsF64, InDomain, ne_eq, dite_eq_right_iff, reduceCtorEq, imp_false, not_not,
      finite.injEq, exists_eq_left']
    refine and_congr_right fun h => ?_
    have := nonneg h
    omega

-- The longest duration is rounded up to a number of seconds that is none.
example : ¬Nanos.InDomain (binary64.mul (Nanos.fromSecs (2 ^ 64 - 1)).asSecsF64 (.finite 1)) := by
  rw [← Nanos.fromSecsF64_ne_none_iff]
  decide +kernel

instance : Delays Nanos Binary where
  secs d      := d.nanos / 10 ^ 9
  fromSecs    := .fromSecs
  fromMillis  := .fromMillis
  two         := .finite 2
  applyJitter := Nanos.applyJitter
  multiply    := Nanos.multiply
  min         := Nanos.min

end MomRpc
