import Mathlib.Data.Rat.Floor
import Mathlib.Data.UInt

/-!
# The numbers of binary64

A binary64 word is a sign, eleven bits of exponent and fifty-two of fraction. Its value is
an integer `mantissa` times a power of two, exactly: the fraction with a leading bit, or
without one for the subnormal numbers. The patterns of the infinities and of NaN get the
value their fields give, which is above every finite one; what is proved for all words is
then true of the infinities as well.

## What is proved

* `magnitude_eq` — in units of the smallest subnormal number the magnitude is a natural
  number, `scaled`.
* `magnitude_mul_lt_of_nonneg` and `magnitude_mul_lt_of_neg` — whether a number exceeds a multiple of
  a value, as a comparison of natural numbers.
-/

namespace Sparrow.Library.Binary64

variable (bits : UInt64)

def fraction : ℕ := bits.toNat % 2 ^ 52

def exponentField : ℕ := bits.toNat / 2 ^ 52 % 2 ^ 11

def negative : Bool := 2 ^ 63 ≤ bits.toNat

/-- The fraction, with the leading bit of a normal number. -/
def mantissa : ℕ :=
  if exponentField bits = 0 then fraction bits else 2 ^ 52 + fraction bits

def exponent : ℤ :=
  if exponentField bits = 0 then -1074 else exponentField bits - 1075

def magnitude : ℚ := mantissa bits * 2 ^ exponent bits

def value : ℚ := if negative bits then -magnitude bits else magnitude bits

/-- The pattern as a signed magnitude: the order of the words. -/
def rank : ℤ :=
  if bits.toNat < 2 ^ 63 then bits.toNat else -((bits.toNat - 2 ^ 63 : ℕ) : ℤ)

def smallest : ℚ := 2 ^ (-1074 : ℤ)

theorem smallest_pos : 0 < smallest := zpow_pos two_pos _

/-- The magnitude of the pattern `m` in units of the smallest subnormal number. -/
def scaled (m : ℕ) : ℕ :=
  if m / 2 ^ 52 = 0 then m % 2 ^ 52 else (2 ^ 52 + m % 2 ^ 52) * 2 ^ (m / 2 ^ 52 - 1)

theorem mantissa_lt : mantissa bits < 2 ^ 53 := by
  have : fraction bits < 2 ^ 52 := Nat.mod_lt _ (by positivity)
  unfold mantissa
  split_ifs <;> omega

variable {bits : UInt64}

theorem mantissa_eq_zero : mantissa bits = 0 ↔ bits.toNat % 2 ^ 63 = 0 := by
  unfold mantissa exponentField fraction
  split_ifs <;> omega

theorem scaled_lt_succ (m : ℕ) : scaled m < scaled (m + 1) := by
  unfold scaled
  -- the next pattern has the next fraction, or the next exponent with fraction zero
  by_cases hf : m % 2 ^ 52 + 1 < 2 ^ 52
  · have hd : (m + 1) / 2 ^ 52 = m / 2 ^ 52 := by omega
    have hm : (m + 1) % 2 ^ 52 = m % 2 ^ 52 + 1 := by omega
    rw [hd, hm]
    split_ifs
    · omega
    · exact Nat.mul_lt_mul_of_pos_right (by omega) (by positivity)
  · have hd : (m + 1) / 2 ^ 52 = m / 2 ^ 52 + 1 := by omega
    have hm : (m + 1) % 2 ^ 52 = 0 := by omega
    rw [hd, hm, if_neg (Nat.succ_ne_zero _)]
    split_ifs with hz
    · rw [hz]
      omega
    · obtain ⟨e, he⟩ := Nat.exists_eq_succ_of_ne_zero hz
      rw [he]
      have hp : 2 ^ (e + 1) = 2 * 2 ^ e := by ring
      calc (2 ^ 52 + m % 2 ^ 52) * 2 ^ e < (2 ^ 52 + 2 ^ 52) * 2 ^ e :=
            Nat.mul_lt_mul_of_pos_right (by omega) (by positivity)
        _ = 2 ^ 52 * 2 ^ (e + 1) := by rw [hp]; ring

theorem scaled_strictMono : StrictMono scaled := strictMono_nat_of_lt_succ scaled_lt_succ

theorem magnitude_eq (bits : UInt64) : magnitude bits = scaled (bits.toNat % 2 ^ 63) * smallest := by
  have hf : bits.toNat % 2 ^ 63 / 2 ^ 52 = exponentField bits := by unfold exponentField; omega
  have hfr : bits.toNat % 2 ^ 63 % 2 ^ 52 = fraction bits := by unfold fraction; omega
  unfold magnitude mantissa exponent scaled
  rw [hf, hfr]
  split_ifs with hz
  · rfl
  · have hs : ((exponentField bits : ℤ) - 1075) = ((exponentField bits - 1 : ℕ) : ℤ) + -1074 := by omega
    rw [hs, zpow_add₀ two_ne_zero, zpow_natCast, ← smallest]
    push_cast
    ring

/-- **Words are ordered as their patterns are.** -/
theorem value_le_value {a b : UInt64} : value a ≤ value b ↔ rank a ≤ rank b := by
  have hs : ∀ m n : ℤ, (m : ℚ) * smallest ≤ n * smallest ↔ m ≤ n := by
    intro m n
    rw [mul_le_mul_iff_of_pos_right smallest_pos]
    exact Int.cast_le
  have hle : ∀ m n : ℕ, (scaled m : ℤ) ≤ scaled n ↔ (m : ℤ) ≤ n := by
    intro m n
    rw [Int.ofNat_le, Int.ofNat_le, scaled_strictMono.le_iff_le]
  have hz : scaled 0 = 0 := rfl
  -- the value is the signed scaled magnitude
  have hv : ∀ c : UInt64, value c =
      ((if c.toNat < 2 ^ 63 then (scaled c.toNat : ℤ) else -(scaled (c.toNat - 2 ^ 63) : ℤ) : ℤ) : ℚ) *
        smallest := by
    intro c
    have hc := c.toNat_lt
    unfold value negative
    rw [magnitude_eq]
    by_cases hn : c.toNat < 2 ^ 63
    · simp only [not_le.mpr hn, decide_false, Bool.false_eq_true, if_false, hn, if_true]
      rw [Nat.mod_eq_of_lt hn]
      push_cast
      ring
    · have hm : c.toNat % 2 ^ 63 = c.toNat - 2 ^ 63 := by omega
      simp only [not_lt.mp hn, decide_true, if_true, hn, if_false]
      rw [hm]
      push_cast
      ring
  rw [hv a, hv b, hs]
  unfold rank
  have h1 := hle a.toNat b.toNat
  have h2 := hle (b.toNat - 2 ^ 63) (a.toNat - 2 ^ 63)
  have h5 := hle a.toNat 0
  have h6 := hle (b.toNat - 2 ^ 63) 0
  split_ifs <;> omega

theorem value_eq_magnitude (h : 0 ≤ value bits) : value bits = magnitude bits := by
  have hp : 0 ≤ magnitude bits := by
    exact mul_nonneg (Nat.cast_nonneg _) (zpow_nonneg two_pos.le _)
  unfold value at h ⊢
  split_ifs at h ⊢
  · linarith
  · rfl

/-- With a power of two that is not negative, a comparison with a multiple is one of natural numbers. -/
theorem magnitude_mul_lt_of_nonneg (he : 0 ≤ exponent bits) (n d : ℕ) :
    magnitude bits * n < d ↔ n * mantissa bits * 2 ^ (exponent bits).toNat < d := by
  obtain ⟨k, hk⟩ := Int.eq_ofNat_of_zero_le he
  unfold magnitude
  rw [hk, zpow_natCast, Int.toNat_natCast, ← Nat.cast_lt (α := ℚ)]
  push_cast
  rw [mul_right_comm, mul_comm (mantissa bits : ℚ) (n : ℚ)]

theorem magnitude_mul_lt_of_neg (he : exponent bits < 0) (n d : ℕ) :
    magnitude bits * n < d ↔ n * mantissa bits < d * 2 ^ (-exponent bits).toNat := by
  obtain ⟨k, hk⟩ := Int.eq_ofNat_of_zero_le (Int.neg_nonneg.mpr he.le)
  have hp : (0 : ℚ) < 2 ^ k := pow_pos two_pos k
  unfold magnitude
  rw [← neg_neg (exponent bits), neg_neg (-exponent bits), hk, Int.toNat_natCast, zpow_neg, zpow_natCast,
    ← Nat.cast_lt (α := ℚ)]
  push_cast
  rw [mul_right_comm, ← div_eq_mul_inv, div_lt_iff₀ hp, mul_comm (mantissa bits : ℚ) (n : ℚ)]

end Sparrow.Library.Binary64
