import Sparrow.Expression.Values
import Sparrow.Library.Binary64

/-!
# Comparisons of the IoT operators

`sparrow-runtime/src/iot.rs`, `compare_threshold` and `deadband_exceeds`: integers are
compared with an `f64` threshold without being rounded to one.

## The model

A threshold is its bit pattern. The operations on it that the integer paths use are exact
(comparison, `floor`, the fields of the pattern, `as` with its saturation) and are written
as such; the arithmetic of the float paths is that of Lean's `Float`. `i128` and `u128`
are integers with their wrapping, checked or saturating operations.
-/

namespace Sparrow.Runtime.Thresholds

open Expression Library Model Binary64

/-- `codec`. -/
def codec (message : String) : SparrowError := .new .codecViolation message

/-! ### Floats -/

/-- `<` on `f64`. -/
def floatLt (a b : UInt64) : Bool := partialCmp a b == some .lt

/-- `>=` on `f64`. -/
def floatGe (a b : UInt64) : Bool := (partialCmp a b).any (· ≠ .lt)

/-- `<=` on `f64`. -/
def floatLe (a b : UInt64) : Bool := (partialCmp a b).any (· ≠ .gt)

/-- `>` on `f64`. -/
def floatGt (a b : UInt64) : Bool := partialCmp a b == some .gt

/-- `f64::abs`. -/
def floatAbs (a : UInt64) : UInt64 := UInt64.ofNat (a.toNat % 2 ^ 63)

/-- `f64::max`. -/
def floatMax (a b : UInt64) : UInt64 := if isNaNBits a then b else if floatGt b a then b else a

/-- `i128::MAX as f64`, which rounds up to `2 ^ 127`. -/
def i128MaxAsF64 : UInt64 := 0x47e0000000000000

/-- `i128::MIN as f64`. -/
def i128MinAsF64 : UInt64 := 0xc7e0000000000000

/-- `u128::MAX as f64`, which rounds up to `2 ^ 128`. -/
def u128MaxAsF64 : UInt64 := 0x47f0000000000000

/-- `u128::MAX`. -/
def u128Max : ℕ := 2 ^ 128 - 1

/-- `floor() as iN`: NaN is zero, and what is out of range saturates. -/
def floorAs (lo hi : ℤ) (bits : UInt64) : ℤ :=
  if isNaNBits bits then 0 else max lo (min hi ⌊value bits⌋)

/-- `floor() as i128`. -/
def floorAsI128 (bits : UInt64) : ℤ := floorAs (-2 ^ 127) (2 ^ 127 - 1) bits

/-- `floor() as u128`. -/
def floorAsU128 (bits : UInt64) : ℕ := (floorAs 0 u128Max bits).toNat

/-- It is its own `floor`. -/
def isWhole (bits : UInt64) : Bool := !isNaNBits bits && value bits = ⌊value bits⌋

/-! ### Hysteresis -/

/-- The integer path of `compare_threshold`. -/
def compareInteger (integer : ℤ) (threshold : UInt64) : Ordering :=
  if floatGe threshold i128MaxAsF64 then .lt
  else if floatLe threshold i128MinAsF64 then .gt
  else
    let order := compare integer (floorAsI128 threshold)
    if order = .eq ∧ !isWhole threshold then .lt else order

/-- Compare integer inputs without rounding them to `f64`. -/
def compareThreshold (value : Scalar) (threshold : UInt64) : Result Ordering :=
  match value with
  | .int64 v => .ok (compareInteger v.toInt threshold)
  | .uInt64 v => .ok (compareInteger v.toNat threshold)
  | .float64 v => match partialCmp v threshold with
    | some order => .ok order
    | none => .error (codec "non-finite hysteresis comparison")
  | _ => .error (codec "hysteresis comparison requires a numeric scalar")

/-! ### Deadband -/

/-- Deadband comparison mode. Relative values are ratios. -/
inductive DeadbandMode where
  | absolute
  | relative
  deriving DecidableEq

/-- `u128::checked_mul`. -/
def checkedMul (a b : ℕ) : Option ℕ := if a * b ≤ u128Max then some (a * b) else none

/-- `u128::saturating_mul`. -/
def saturatingMul (a b : ℕ) : ℕ := min (a * b) u128Max

/-- Subtraction of `i128`, which wraps. -/
def i128Sub (a b : ℤ) : ℤ := Int.bmod (a - b) (2 ^ 128)

/-- `i64_abs`. -/
def i64Abs (value : Int64) : ℕ := value.toInt.natAbs

/-- `i64_delta`. -/
def i64Delta (a b : Int64) : ℕ := (i128Sub a.toInt b.toInt).natAbs

/-- `u64::abs_diff`. -/
def absDiff (a b : UInt64) : ℕ := (a.toNat - b.toNat) + (b.toNat - a.toNat)

/-- `integer_threshold_exceeds`. -/
def integerThresholdExceeds (delta : ℕ) (threshold : UInt64) : Bool :=
  if delta = 0 then false
  else if floatGe threshold u128MaxAsF64 then false
  else delta > floorAsU128 threshold

/-- Rust's shift checks the amount, not the loss of high bits. -/
def checkedValueShift (value shift : ℕ) : Option ℕ :=
  if value = 0 then some 0
  else if shift ≥ 128 ∨ value > u128Max / 2 ^ shift then none
  else some (value * 2 ^ shift % 2 ^ 128)

/-- Compare `delta / baseline > threshold` on the mantissa and exponent of the threshold. -/
def integerRelativeExceeds (delta baseline : ℕ) (threshold : UInt64) : Bool :=
  if delta = 0 then false
  else if baseline = 0 then true
  else if isZeroBits threshold then true
  else
    let mantissa := mantissa threshold
    let exponent := exponent threshold
    if exponent ≥ 0 then
      match (checkedMul baseline mantissa).bind fun value => checkedValueShift value exponent.toNat with
      | some rhs => delta > rhs
      | none => false
    else
      let rhs := saturatingMul baseline mantissa
      match checkedValueShift delta (-exponent).toNat with
      | some lhs => lhs > rhs
      | none => true

/-- The float path of `deadband_exceeds`. -/
def floatExceeds (a b : UInt64) (mode : DeadbandMode) (threshold : UInt64) : Bool :=
  let delta := floatAbs (floatOp (· - ·) a b)
  if isZeroBits delta then false
  else match mode with
    | .absolute => floatGt delta threshold
    | .relative =>
      if isZeroBits a then true
      else if delta = 0x7ff0000000000000 then
        let scale := floatMax (floatAbs a) (floatAbs b)
        floatGt (floatAbs (floatOp (· - ·) (floatOp (· / ·) a scale)
            (floatOp (· / ·) b scale)))
          (floatOp (· * ·) threshold (floatOp (· / ·) (floatAbs a) scale))
      else floatGt (floatOp (· / ·) delta (floatAbs a)) threshold

/-- `deadband_exceeds`. -/
def deadbandExceeds (previous current : Scalar) (mode : DeadbandMode) (threshold : UInt64) : Result Bool := do
  refuseIf (!isFiniteBits threshold || floatLt threshold 0)
    (.new .invalidArgument "IoT Deadband threshold must be finite and non-negative")
  match previous, current, mode with
  | .int64 a, .int64 b, .absolute => .ok (integerThresholdExceeds (i64Delta a b) threshold)
  | .int64 a, .int64 b, .relative => .ok (integerRelativeExceeds (i64Delta a b) (i64Abs a) threshold)
  | .uInt64 a, .uInt64 b, .absolute => .ok (integerThresholdExceeds (absDiff a b) threshold)
  | .uInt64 a, .uInt64 b, .relative => .ok (integerRelativeExceeds (absDiff a b) a.toNat threshold)
  | .float64 a, .float64 b, mode => .ok (floatExceeds a b mode threshold)
  | _, _, _ => .error (.new .typeMismatch "IoT Deadband baseline/value types differ")

/-! ### The order of the floats -/

theorem not_isNaNBits {bits : UInt64} (h : isFiniteBits bits = true) : isNaNBits bits = false := by
  simp only [isFiniteBits, decide_eq_true_eq] at h
  simp only [isNaNBits, decide_eq_false_iff_not]
  omega

variable {a b threshold : UInt64} {baseline : ℕ}

section

variable (ha : isNaNBits a = false) (hb : isNaNBits b = false)

include ha hb

theorem partialCmp_eq : partialCmp a b = some (compare (value a) (value b)) := by
  have hab := value_le_value (a := a) (b := b)
  have hba := value_le_value (a := b) (b := a)
  simp only [partialCmp, ha, hb, Bool.or_self, Bool.false_eq_true, if_false, Option.some.injEq]
  have hr : ∀ c, floatRank c = rank c := fun c => rfl
  rw [hr, hr]
  rcases lt_trichotomy (rank a) (rank b) with h | h | h
  · rw [compare_lt_iff_lt.mpr h, eq_comm, compare_lt_iff_lt, ← not_le, hba, not_le]
    exact h
  · rw [compare_eq_iff_eq.mpr h, eq_comm, compare_eq_iff_eq]
    exact le_antisymm (hab.mpr h.le) (hba.mpr h.ge)
  · rw [compare_gt_iff_gt.mpr h, eq_comm, compare_gt_iff_gt, ← not_le, hab, not_le]
    exact h

theorem floatGe_iff : floatGe a b = true ↔ value b ≤ value a := by
  rw [floatGe, partialCmp_eq ha hb, Option.any_some, decide_eq_true_eq, ne_eq, compare_lt_iff_lt, not_lt]

theorem floatLe_iff : floatLe a b = true ↔ value a ≤ value b := by
  rw [floatLe, partialCmp_eq ha hb, Option.any_some, decide_eq_true_eq, ne_eq, compare_gt_iff_gt, not_lt]

theorem floatLt_iff : floatLt a b = true ↔ value a < value b := by
  rw [floatLt, partialCmp_eq ha hb, beq_iff_eq, Option.some.injEq, compare_lt_iff_lt]

end

theorem value_of_fields {bits : UInt64} (e : ℕ) (negative : Bool) (hf : exponent bits = e ∧
    Binary64.mantissa bits = 2 ^ 52 ∧ Binary64.negative bits = negative) :
    Binary64.value bits = (if negative then -1 else 1) * 2 ^ (52 + e) := by
  rw [value, hf.2.2, magnitude, hf.1, hf.2.1, zpow_natCast, pow_add]
  cases negative <;> norm_num

theorem value_i128MaxAsF64 : value i128MaxAsF64 = 2 ^ 127 := by
  rw [value_of_fields 75 false (by decide)]
  norm_num

theorem value_i128MinAsF64 : value i128MinAsF64 = -2 ^ 127 := by
  rw [value_of_fields 75 true (by decide)]
  norm_num

theorem value_u128MaxAsF64 : value u128MaxAsF64 = 2 ^ 128 := by
  rw [value_of_fields 76 false (by decide)]
  norm_num

theorem value_zero : value 0 = 0 := by
  have hf : mantissa 0 = 0 ∧ negative 0 = false := by decide
  rw [value, hf.2, if_neg Bool.false_ne_true, magnitude, hf.1]
  simp

/-! ### Integers against a threshold -/

theorem floorAsI128_eq (hn : isNaNBits threshold = false) (hge : ¬floatGe threshold i128MaxAsF64 = true)
    (hle : ¬floatLe threshold i128MinAsF64 = true) : floorAsI128 threshold = ⌊value threshold⌋ := by
  rw [floatGe_iff hn (by decide), value_i128MaxAsF64, not_le] at hge
  rw [floatLe_iff hn (by decide), value_i128MinAsF64, not_le] at hle
  have h1 : (-2 ^ 127 : ℤ) ≤ ⌊value threshold⌋ := Int.le_floor.mpr (by push_cast; exact hle.le)
  have h2 : ⌊value threshold⌋ < (2 ^ 127 : ℤ) := Int.floor_lt.mpr (by push_cast; exact hge)
  rw [floorAsI128, floorAs, hn, if_neg Bool.false_ne_true, min_eq_right (by omega), max_eq_right h1]

theorem floorAsU128_eq (hn : isNaNBits threshold = false) (hpos : 0 ≤ value threshold)
    (hge : ¬floatGe threshold u128MaxAsF64 = true) :
    (floorAsU128 threshold : ℤ) = ⌊value threshold⌋ := by
  rw [floatGe_iff hn (by decide), value_u128MaxAsF64, not_le] at hge
  have h1 : 0 ≤ ⌊value threshold⌋ := Int.floor_nonneg.mpr hpos
  have h2 : ⌊value threshold⌋ < (2 ^ 128 : ℤ) := Int.floor_lt.mpr (by push_cast; exact hge)
  have hm : ((u128Max : ℕ) : ℤ) = 2 ^ 128 - 1 := by norm_num [u128Max]
  rw [floorAsU128, floorAs, hn, if_neg Bool.false_ne_true, hm, min_eq_right (by omega), max_eq_right h1,
    Int.toNat_of_nonneg h1]

/-- **An integer is compared with the exact value of the threshold.** -/
theorem compareInteger_eq {integer : ℤ} (ht : isFiniteBits threshold = true) (hlo : -2 ^ 127 < integer)
    (hhi : integer < 2 ^ 127) :
    compareInteger integer threshold = compare (integer : ℚ) (value threshold) := by
  have hn := not_isNaNBits ht
  have hf := Int.floor_le (value threshold)
  have hc := Int.lt_floor_add_one (value threshold)
  have hl : (-2 ^ 127 : ℚ) < integer := by exact_mod_cast hlo
  have hh : (integer : ℚ) < 2 ^ 127 := by exact_mod_cast hhi
  unfold compareInteger
  dsimp only
  split_ifs with hge hle heq
  · rw [floatGe_iff hn (by decide), value_i128MaxAsF64] at hge
    exact (compare_lt_iff_lt.mpr (hh.trans_le hge)).symm
  · rw [floatLe_iff hn (by decide), value_i128MinAsF64] at hle
    exact (compare_gt_iff_gt.mpr (hle.trans_lt hl)).symm
  · -- equal to the floor of a threshold that is not whole
    rw [floorAsI128_eq hn hge hle] at heq
    have hi := compare_eq_iff_eq.mp heq.1
    have hne : value threshold ≠ ⌊value threshold⌋ := by simpa [isWhole, hn] using heq.2
    refine (compare_lt_iff_lt.mpr ?_).symm
    rw [hi]
    exact lt_of_le_of_ne hf hne.symm
  · rw [floorAsI128_eq hn hge hle] at heq ⊢
    rcases lt_trichotomy integer ⌊value threshold⌋ with h | h | h
    · rw [compare_lt_iff_lt.mpr h]
      exact (compare_lt_iff_lt.mpr ((Int.cast_lt.mpr h).trans_le hf)).symm
    · have hw : value threshold = ⌊value threshold⌋ := by
        simpa [compare_eq_iff_eq.mpr h, isWhole, hn] using heq
      rw [compare_eq_iff_eq.mpr h]
      exact (compare_eq_iff_eq.mpr (by rw [h]; exact hw.symm)).symm
    · rw [compare_gt_iff_gt.mpr h]
      refine (compare_gt_iff_gt.mpr (hc.trans_le ?_)).symm
      exact_mod_cast h

/-! ### Distances -/

theorem i128Sub_eq {a b : ℤ} (ha : -2 ^ 64 ≤ a ∧ a ≤ 2 ^ 64) (hb : -2 ^ 64 ≤ b ∧ b ≤ 2 ^ 64) : i128Sub a b = a - b :=
  Int.bmod_eq_of_le (by omega) (by omega)

theorem i64Delta_eq (a b : Int64) : i64Delta a b = (a.toInt - b.toInt).natAbs := by
  have := a.toInt_lt
  have := a.le_toInt
  have := b.toInt_lt
  have := b.le_toInt
  rw [i64Delta, i128Sub_eq (by omega) (by omega)]

/-- **A distance exceeds the threshold exactly as its value says.** -/
theorem integerThresholdExceeds_iff {delta : ℕ} (ht : isFiniteBits threshold = true)
    (hpos : 0 ≤ value threshold) (hd : delta < 2 ^ 128) :
    integerThresholdExceeds delta threshold = true ↔ value threshold < delta := by
  have hn := not_isNaNBits ht
  unfold integerThresholdExceeds
  split_ifs with hz hge
  · simp [hz, hpos]
  · rw [floatGe_iff hn (by decide), value_u128MaxAsF64] at hge
    have : (delta : ℚ) < 2 ^ 128 := by exact_mod_cast hd
    simp only [false_iff, not_lt]
    exact this.le.trans hge
  · rw [decide_eq_true_eq, gt_iff_lt, ← Int.ofNat_lt, floorAsU128_eq hn hpos hge, Int.floor_lt]
    rfl

theorem checkedValueShift_eq (value shift : ℕ) :
    checkedValueShift value shift = if value * 2 ^ shift < 2 ^ 128 then some (value * 2 ^ shift) else none := by
  have hp : 0 < 2 ^ shift := by positivity
  have hf : value ≤ u128Max / 2 ^ shift ↔ value * 2 ^ shift < 2 ^ 128 := by
    rw [Nat.le_div_iff_mul_le hp, u128Max]
    omega
  have hs (hpos : value ≠ 0) (h : value * 2 ^ shift < 2 ^ 128) : shift < 128 := by
    have : 1 * 2 ^ shift ≤ value * 2 ^ shift := Nat.mul_le_mul_right _ (Nat.pos_of_ne_zero hpos)
    exact (Nat.pow_lt_pow_iff_right (a := 2) (by omega)).mp (by omega)
  unfold checkedValueShift
  by_cases hz : value = 0
  · simp [hz]
  by_cases h : value * 2 ^ shift < 2 ^ 128
  · have hn : ¬(shift ≥ 128 ∨ value > u128Max / 2 ^ shift) := by
      omega
    rw [if_neg hz, if_neg hn, if_pos h, Nat.mod_eq_of_lt h]
  · rw [if_neg hz, if_pos (Or.inr (not_le.mp (mt hf.mp h))), if_neg h]

theorem mul_mantissa_lt (hba : baseline ≤ 2 ^ 64) (threshold : UInt64) :
    baseline * mantissa threshold < 2 ^ 117 + 1 := by
  have := mantissa_lt threshold
  calc baseline * mantissa threshold ≤ 2 ^ 64 * 2 ^ 53 := Nat.mul_le_mul hba this.le
    _ < 2 ^ 117 + 1 := by norm_num

theorem checkedMul_mantissa (hba : baseline ≤ 2 ^ 64) (threshold : UInt64) :
    checkedMul baseline (mantissa threshold) = some (baseline * mantissa threshold) ∧
      saturatingMul baseline (mantissa threshold) = baseline * mantissa threshold := by
  have := mul_mantissa_lt hba threshold
  have hle : baseline * mantissa threshold ≤ u128Max := by rw [u128Max]; omega
  exact ⟨if_pos hle, min_eq_left hle⟩

/-- **A relative distance exceeds the threshold exactly as the product with the baseline says.** -/
theorem integerRelativeExceeds_iff {delta : ℕ} (hpos : 0 ≤ value threshold) (hde : delta < 2 ^ 128)
    (hba : baseline ≤ 2 ^ 64) : integerRelativeExceeds delta baseline threshold = true ↔
      delta ≠ 0 ∧ (baseline = 0 ∨ value threshold * baseline < delta) := by
  have hv := value_eq_magnitude hpos
  have hmu := checkedMul_mantissa hba threshold
  have hbo := mul_mantissa_lt hba threshold
  unfold integerRelativeExceeds
  dsimp only
  split_ifs with hd hb hz he
  · simp [hd]
  · simp [hb, hd]
  · -- the zero threshold, of either sign
    have hm : mantissa threshold = 0 := Binary64.mantissa_eq_zero.mpr (by simpa [isZeroBits] using hz)
    have : (0 : ℚ) < delta := by exact_mod_cast Nat.pos_of_ne_zero hd
    simp [hv, magnitude, hm, hd, this]
  · rw [hv, magnitude_mul_lt_of_nonneg he, hmu.1, Option.bind_some, checkedValueShift_eq]
    split_ifs with hf
    · simp [hd, hb]
    · simp only [hd, hb, ne_eq, not_false_eq_true, true_and, false_or, false_iff]
      omega
  · rw [hv, magnitude_mul_lt_of_neg (not_le.mp he), hmu.2, checkedValueShift_eq]
    split_ifs with hf
    · simp [hd, hb]
    · simp only [true_iff, hd, hb, ne_eq, not_false_eq_true, true_and, false_or]
      omega

/-! ### The exact comparisons -/

/-- What a deadband asks of the previous value `a` and the current value `b`. -/
def Exceeds (mode : DeadbandMode) (threshold a b : ℚ) : Prop :=
  match mode with
  | .absolute => threshold < |a - b|
  | .relative => a ≠ b ∧ (a = 0 ∨ threshold * |a| < |a - b|)

instance (mode : DeadbandMode) (threshold a b : ℚ) : Decidable (Exceeds mode threshold a b) := by
  cases mode <;> unfold Exceeds <;> infer_instance

section

variable (ht : isFiniteBits threshold = true) (hpos : 0 ≤ value threshold)

include ht hpos

/-- The integer paths of `deadband_exceeds`, which pass the distance and the size of the baseline on. -/
theorem integerExceeds_eq {a b : ℤ} (ha : a.natAbs ≤ 2 ^ 64) (hb : b.natAbs ≤ 2 ^ 64) (mode : DeadbandMode) :
    (match mode with
      | .absolute => integerThresholdExceeds (a - b).natAbs threshold
      | .relative => integerRelativeExceeds (a - b).natAbs a.natAbs threshold) =
      decide (Exceeds mode (value threshold) a b) := by
  have hd : (a - b).natAbs < 2 ^ 128 := by omega
  have hc : (((a - b).natAbs : ℕ) : ℚ) = |(a : ℚ) - b| := by rw [Nat.cast_natAbs]; push_cast; rfl
  have hab : ((a.natAbs : ℕ) : ℚ) = |(a : ℚ)| := by rw [Nat.cast_natAbs]; push_cast; rfl
  rw [Bool.eq_iff_iff, decide_eq_true_eq]
  cases mode with
  | absolute =>
    rw [Exceeds, ← hc]
    exact integerThresholdExceeds_iff ht hpos hd
  | relative =>
    rw [Exceeds, ← hc, ← hab, ne_eq, Int.cast_inj, Int.cast_eq_zero]
    refine (integerRelativeExceeds_iff hpos hd ha).trans ?_
    rw [ne_eq, Int.natAbs_eq_zero, Int.natAbs_eq_zero, sub_eq_zero]

theorem deadbandExceeds_accepts : (!isFiniteBits threshold || floatLt threshold 0) = false := by
  have hlt : floatLt threshold 0 = false := by
    rw [Bool.eq_false_iff, ne_eq, floatLt_iff (not_isNaNBits ht) (by decide), value_zero, not_lt]
    exact hpos
  rw [ht, hlt]
  rfl

theorem deadbandExceeds_int64 (mode : DeadbandMode) (a b : Int64) :
    deadbandExceeds (.int64 a) (.int64 b) mode threshold =
      .ok (decide (Exceeds mode (value threshold) a.toInt b.toInt)) := by
  have := a.toInt_lt
  have := a.le_toInt
  have := b.toInt_lt
  have := b.le_toInt
  rw [← integerExceeds_eq ht hpos (by omega) (by omega) mode, ← i64Delta_eq]
  unfold deadbandExceeds
  rw [deadbandExceeds_accepts ht hpos]
  cases mode <;> rfl

theorem deadbandExceeds_uInt64 (mode : DeadbandMode) (a b : UInt64) :
    deadbandExceeds (.uInt64 a) (.uInt64 b) mode threshold =
      .ok (decide (Exceeds mode (value threshold) a.toNat b.toNat)) := by
  have := a.toNat_lt
  have := b.toNat_lt
  have hd : absDiff a b = ((a.toNat : ℤ) - b.toNat).natAbs := by rw [absDiff]; omega
  have h := integerExceeds_eq ht hpos (a := a.toNat) (b := b.toNat) (by omega) (by omega) mode
  rw [← hd] at h
  push_cast at h
  rw [← h]
  unfold deadbandExceeds
  rw [deadbandExceeds_accepts ht hpos]
  cases mode <;> rfl

end

/-- **The comparisons of integers with thresholds are exact**: over the rationals, without rounding, and no
intermediate `i128` or `u128` operation loses anything. -/
theorem comparisons_exact (threshold : UInt64) (ht : isFiniteBits threshold = true) :
    (0 ≤ value threshold → ∀ mode : DeadbandMode,
      (∀ a b : Int64, deadbandExceeds (.int64 a) (.int64 b) mode threshold =
        .ok (decide (Exceeds mode (value threshold) a.toInt b.toInt))) ∧
      ∀ a b : UInt64, deadbandExceeds (.uInt64 a) (.uInt64 b) mode threshold =
        .ok (decide (Exceeds mode (value threshold) a.toNat b.toNat))) ∧
    (∀ a : Int64, compareThreshold (.int64 a) threshold = .ok (compare (a.toInt : ℚ) (value threshold))) ∧
    (∀ a : UInt64, compareThreshold (.uInt64 a) threshold = .ok (compare (a.toNat : ℚ) (value threshold))) ∧
    (∀ a b : Int64, i128Sub a.toInt b.toInt = a.toInt - b.toInt) ∧
    (∀ baseline ≤ 2 ^ 64,
      checkedMul baseline (mantissa threshold) = some (baseline * mantissa threshold) ∧
        saturatingMul baseline (mantissa threshold) = baseline * mantissa threshold) ∧
    (∀ value shift, checkedValueShift value shift =
      if value * 2 ^ shift < 2 ^ 128 then some (value * 2 ^ shift) else none) ∧
    (¬floatGe threshold i128MaxAsF64 = true → ¬floatLe threshold i128MinAsF64 = true →
      floorAsI128 threshold = ⌊value threshold⌋) ∧
    (0 ≤ value threshold → ¬floatGe threshold u128MaxAsF64 = true →
      (floorAsU128 threshold : ℤ) = ⌊value threshold⌋) := by
  have hn := not_isNaNBits ht
  refine ⟨fun hpos mode => ⟨deadbandExceeds_int64 ht hpos mode, deadbandExceeds_uInt64 ht hpos mode⟩, fun a => ?_,
    fun a => ?_, fun a b => ?_, fun baseline hba => checkedMul_mantissa hba threshold, checkedValueShift_eq,
    floorAsI128_eq hn, floorAsU128_eq hn⟩
  · have := a.toInt_lt
    have := a.le_toInt
    rw [compareThreshold, compareInteger_eq ht (by omega) (by omega)]
  · have := a.toNat_lt
    rw [compareThreshold, compareInteger_eq ht (by omega) (by omega)]
    rfl
  · have := a.toInt_lt
    have := a.le_toInt
    have := b.toInt_lt
    have := b.le_toInt
    exact i128Sub_eq (by omega) (by omega)

/-- A subnormal threshold: the smallest positive float, which any distance exceeds and which lies above zero only. -/
theorem comparisons_exact_subnormal : isFiniteBits 1 = true ∧ 0 ≤ value 1 ∧
      deadbandExceeds (.int64 (-5)) (.int64 3) .relative 1 =
        .ok (decide (Exceeds .relative (value 1) (-5 : Int64).toInt (3 : Int64).toInt)) ∧
      compareThreshold (.uInt64 0) 1 = .ok (compare ((0 : UInt64).toNat : ℚ) (value 1)) := by
  have hpos : 0 ≤ value 1 := by
    rw [← value_zero, value_le_value]
    decide
  have h := comparisons_exact 1 (by decide)
  exact ⟨by decide, hpos, (h.1 hpos .relative).1 (-5) 3, h.2.2.1 0⟩

end Sparrow.Runtime.Thresholds
