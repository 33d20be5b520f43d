import Sparrow.Model.Schema
import Sparrow.Model.Window

/-!
# Incremental aggregates

`sparrow-runtime/src/aggregate.rs`: one accumulator per aggregate and key, updated
value by value. Integer sums are checked; an overflow fails the job.

Floats are kept as bit patterns; arithmetic on them is that of `Float`, the IEEE
binary64 type, whose NaN results have one representation.
-/

namespace Sparrow.Runtime

open Library Model

/-- First/last skip SQL NULL; moments use sequential Welford arithmetic. -/
inductive ExtendedAccumulator where
  | value (first : Bool) (value : Option Scalar)
  | moment (sample sqrt : Bool) (n mean m2 : UInt64)

inductive Accumulator where
  | extended (acc : ExtendedAccumulator)
  /-- `COUNT(*)` over all rows, `COUNT(col)` over the non-NULL ones. -/
  | count (rows nonNull : UInt64) (star : Bool)
  /-- SUM of `Int64`. -/
  | sumI64 (sum : Int64) (n : UInt64)
  /-- SUM of `UInt64`. -/
  | sumU64 (sum n : UInt64)
  /-- SUM of `Float64`. -/
  | sumF64 (sum n : UInt64)
  | avg (sum n : UInt64) (sawFloat : Bool)
  | min (v : Option Scalar)
  | max (v : Option Scalar)

def aggOverflow : SparrowError :=
  .new .integerOverflow
    "integer aggregate overflow (checked integer overflow: SUM/COUNT on integers fail the job (integer_overflow); never wrap or silent-drop)"

/-- `u64::checked_add(1)`. -/
def checkedSucc (n : UInt64) : Result UInt64 :=
  if n.toNat + 1 < 2 ^ 64 then .ok (n + 1) else .error aggOverflow

/-- `i64::checked_add`. -/
def checkedAddI64 (a b : Int64) : Result Int64 :=
  if fitsI64 (a + b : ℤ) then .ok (a + b) else .error aggOverflow

/-- `u64::checked_add`. -/
def checkedAddU64 (a b : UInt64) : Result UInt64 :=
  if a.toNat + b.toNat < 2 ^ 64 then .ok (a + b) else .error aggOverflow

/-- The order MIN and MAX use; `none` for unordered floats, an error across types. -/
def cmpOrd (a b : Scalar) : Result (Option Ordering) :=
  let mismatch : Result (Option Ordering) :=
    let left := a.dataType.display
    let right := b.dataType.display
    .error (.new .typeMismatch s!"MIN/MAX cannot compare {left} and {right}")
  match a, b with
  | .int64 x, .int64 y => .ok (some (compare x.toInt y.toInt))
  | .uInt64 x, .uInt64 y => .ok (some (compare x.toNat y.toNat))
  | .int64 x, .uInt64 y =>
    if 0 ≤ x.toInt then .ok (some (compare x.toInt (y.toNat : ℤ))) else mismatch
  | .uInt64 x, .int64 y =>
    if 0 ≤ y.toInt then .ok (some (compare (x.toNat : ℤ) y.toInt)) else mismatch
  | .timestampMicrosUTC x, .timestampMicrosUTC y => .ok (some (compare x.toInt y.toInt))
  | .timestampMicrosUTC x, .int64 y => .ok (some (compare x.toInt y.toInt))
  | .int64 x, .timestampMicrosUTC y => .ok (some (compare x.toInt y.toInt))
  | .float64 x, .float64 y => .ok (partialCmp x y)
  | .utf8 x, .utf8 y => .ok (some (compare (utf8Bytes x) (utf8Bytes y)))
  | .bytes x, .bytes y => .ok (some (compare x y))
  | .bool x, .bool y => .ok (some (compare x y))
  | _, _ => mismatch

namespace ExtendedAccumulator

def welford (x n mean m2 : UInt64) : Result (UInt64 × UInt64 × UInt64) := do
  let count ← checkedSucc n
  let delta := floatOp (· - ·) x mean
  let nextMean := floatOp (· + ·) mean (floatOp (· / ·) delta count.toFloat.toBits)
  let nextM2 := floatOp (· + ·) m2 (floatOp (· * ·) delta (floatOp (· - ·) x nextMean))
  if ¬ isFiniteBits nextMean ∨ ¬ isFiniteBits nextM2 then .error aggOverflow
  else return (count, nextMean, nextM2)

/-- `ExtendedAccumulator::update`. -/
def update (acc : ExtendedAccumulator) (input : Scalar) : Result ExtendedAccumulator :=
  if input.isNull then .ok acc
  else match acc with
    | .value first v => .ok (if !first || v.isNone then .value first (some input) else acc)
    | .moment sample sqrt n mean m2 =>
      let notFinite := SparrowError.new .typeMismatch "variance/stddev require finite numeric values"
      let x : Option UInt64 := match input with
        | .int64 v => some v.toFloat.toBits
        | .uInt64 v => some v.toFloat.toBits
        | .float64 bits => if isFiniteBits bits then some bits else none
        | _ => none
      match x with
      | none => .error notFinite
      | some x => do
        let (n, mean, m2) ← welford x n mean m2
        return .moment sample sqrt n mean m2

/-- `ExtendedAccumulator::finish`. -/
def finish : ExtendedAccumulator → Scalar
  | .value _ v => v.getD .null
  | .moment sample sqrt n _ m2 =>
    let less : UInt64 := if sample then 1 else 0
    if n.toNat ≤ less.toNat then .null
    else
      let quotient := Float.ofBits m2 / (n - less).toFloat
      -- `f64::max` returns the other operand when one is NaN
      let variance := if isNaNBits quotient.toBits ∨ quotient < 0 then 0 else quotient
      .float64 (if sqrt then variance.sqrt else variance).toBits

end ExtendedAccumulator

namespace Accumulator

/-- `Accumulator::new`. -/
def new (func : AggFn) (ty : DataType) (countStar : Bool) : Result Accumulator :=
  let moment (sample sqrt : Bool) : Result Accumulator :=
    match ty with
    | .int64 | .uInt64 | .float64 | .null => .ok (.extended (.moment sample sqrt 0 0 0))
    | _ => .error (.new .typeMismatch "variance/stddev require numeric inputs")
  match func with
  | .first => .ok (.extended (.value true none))
  | .last => .ok (.extended (.value false none))
  | .varPop => moment false false
  | .varSamp => moment true false
  | .stddevPop => moment false true
  | .stddevSamp => moment true true
  | .count => .ok (.count 0 0 countStar)
  | .sum =>
    match ty with
    | .int64 | .null => .ok (.sumI64 0 0)
    | .uInt64 => .ok (.sumU64 0 0)
    | .float64 => .ok (.sumF64 0 0)
    | other =>
      let name := other.display
      .error (.new .typeMismatch s!"SUM does not accept {name}")
  | .avg => .ok (.avg 0 0 (match ty with | .float64 => true | _ => false))
  | .min => .ok (.min none)
  | .max => .ok (.max none)

/-- Keep `value` in place of `cur` when it compares as `wanted`. -/
def keepExtreme (wanted : Ordering) (cur : Option Scalar) (value : Scalar) : Result (Option Scalar) :=
  match cur with
  | none => .ok (some value)
  | some c =>
    if c.isNaN then .ok (some value)
    else do
      let order ← cmpOrd value c
      return if order = some wanted then some value else some c

/-- `Accumulator::update`. -/
def update (acc : Accumulator) (value : Scalar) : Result Accumulator :=
  let got := value.dataType.display
  match acc with
  | .extended extra => do return .extended (← extra.update value)
  | .count rows nonNull star => do
    let rows ← checkedSucc rows
    let nonNull ← if value.isNull then pure nonNull else checkedSucc nonNull
    return .count rows nonNull star
  | .sumI64 sum n =>
    if value.isNull then .ok acc
    else do
      let v ← match value with
        | .int64 v => .ok v
        | .uInt64 v =>
          if v.toNat < 2 ^ 63 then .ok v.toInt64
          else .error (.new .typeMismatch s!"SUM(int64) got {got}")
        | _ => .error (.new .typeMismatch s!"SUM(int64) got {got}")
      let sum ← checkedAddI64 sum v
      let n ← checkedSucc n
      return .sumI64 sum n
  | .sumU64 sum n =>
    if value.isNull then .ok acc
    else do
      let v ← match value with
        | .uInt64 v => .ok v
        | .int64 v =>
          if 0 ≤ v.toInt then .ok v.toUInt64
          else .error (.new .typeMismatch s!"SUM(uint64) got {got}")
        | _ => .error (.new .typeMismatch s!"SUM(uint64) got {got}")
      let sum ← checkedAddU64 sum v
      let n ← checkedSucc n
      return .sumU64 sum n
  | .sumF64 sum n =>
    if value.isNull then .ok acc
    else match value.asF64 with
      | none => .error (.new .typeMismatch "SUM(float64) expects numeric")
      | some v => .ok (.sumF64 (floatOp (· + ·) sum v) (n + 1))
  | .avg sum n sawFloat =>
    if value.isNull then .ok acc
    else
      let sawFloat := sawFloat || match value with | .float64 _ => true | _ => false
      match value.asF64 with
      | none => .error (.new .typeMismatch "AVG expects numeric")
      | some v => do
        let n ← checkedSucc n
        return .avg (floatOp (· + ·) sum v) n sawFloat
  | .min v => do
    if value.isNull || value.isNaN then return acc
    return .min (← keepExtreme .lt v value)
  | .max v => do
    if value.isNull || value.isNaN then return acc
    return .max (← keepExtreme .gt v value)

/-- `Accumulator::finish`. -/
def finish : Accumulator → Scalar
  | .extended extra => extra.finish
  | .count rows nonNull star => .int64 (if star then rows else nonNull).toInt64
  | .sumI64 sum n => if n = 0 then .null else .int64 sum
  | .sumU64 sum n => if n = 0 then .null else .uInt64 sum
  | .sumF64 sum n => if n = 0 then .null else .float64 sum
  | .avg sum n _ => if n = 0 then .null else .float64 (Float.ofBits sum / n.toFloat).toBits
  | .min v | .max v => v.getD .null

end Accumulator

/-! ### Several accumulators over several inputs -/

/-- Update each accumulator with the value at its place; accumulators past the last
value stay as they are. -/
def updateAll : List Accumulator → List Scalar → Result (List Accumulator)
  | acc :: accs, value :: values => do
    let acc ← acc.update value
    let accs ← updateAll accs values
    return acc :: accs
  | accs, _ => .ok accs

/-- Fold the inputs into the accumulators, one after the other. -/
def foldInputs (accs : List Accumulator) : List (List Scalar) → Result (List Accumulator)
  | [] => .ok accs
  | values :: rest => do
    let accs ← updateAll accs values
    foldInputs accs rest

/-- What accumulators come to over some inputs, said column by column: the accumulator at place `j`
has been updated with the values at place `j` of the inputs, one after the other. -/
def Aggregated (empty : List Accumulator) (inputs : List (List Scalar)) (accs : List Accumulator) : Prop :=
  ∀ (j : ℕ) (acc : Accumulator), accs[j]? = some acc ↔
    ∃ acc₀, empty[j]? = some acc₀ ∧ (inputs.filterMap (·[j]?)).foldlM Accumulator.update acc₀ = .ok acc

theorem Aggregated.refl (accs : List Accumulator) : Aggregated accs [] accs := by
  intro j acc
  simp [pure, Except.pure]

theorem Aggregated.append {a b c : List Accumulator} {xs ys : List (List Scalar)} (h : Aggregated a xs b)
    (h' : Aggregated b ys c) : Aggregated a (xs ++ ys) c := by
  intro j acc
  simp only [h' j, h j, List.filterMap_append, List.foldlM_append, bind_eq_ok]
  constructor
  · rintro ⟨acc₁, ⟨acc₀, h₀, h₁⟩, h₂⟩
    exact ⟨acc₀, h₀, acc₁, h₁, h₂⟩
  · rintro ⟨acc₀, h₀, acc₁, h₁, h₂⟩
    exact ⟨acc₁, ⟨acc₀, h₀, h₁⟩, h₂⟩

theorem aggregated_updateAll : ∀ {accs : List Accumulator} {values : List Scalar},
    (updateAll accs values).Ensures (Aggregated accs [values])
  | acc :: accs, value :: values => by
    refine .bind fun acc' ha => .bind fun accs' has => .ok fun j out => ?_
    cases j with
    | zero => simp [ha, pure, Except.pure, bind, Except.bind]
    | succ j =>
      have hc : [value :: values].filterMap (·[j + 1]?) = [values].filterMap (·[j]?) := by
        simp only [List.filterMap_cons, List.getElem?_cons_succ, List.filterMap_nil]
      rw [hc]
      exact aggregated_updateAll has j out
  | [], values => .ok fun j out => by simp
  | acc :: accs, [] => .ok fun j out => by simp [pure, Except.pure]

/-- **The accumulators are folded column by column.** -/
theorem aggregated_foldInputs {accs : List Accumulator} {inputs : List (List Scalar)} :
    (foldInputs accs inputs).Ensures (Aggregated accs inputs) := by
  induction inputs generalizing accs with
  | nil => exact .ok (.refl accs)
  | cons values rest ih => exact .bind fun accs' hu _ h => (aggregated_updateAll hu).append (ih h)

/-! ### Result rows -/

/-- The result row of one key: its values, the bounds, the finished aggregates. -/
def resultRow (key : List Scalar) (start stop : ℤ) (accs : List Accumulator) : Row :=
  { values := key ++ [.int64 (.ofInt start), .int64 (.ofInt stop)] ++ accs.map Accumulator.finish }

/-- A result row as its readers see it: the key it is for, and its bounds. `n` is the
number of key columns. -/
def finalOf (n : ℕ) (row : Row) : Option (Bytes × ℤ × ℤ) :=
  match row.values.drop n with
  | .int64 start :: .int64 stop :: _ =>
    some (encodeKeyValues (row.values.take n), start.toInt, stop.toInt)
  | _ => none

theorem finalOf_resultRow {n : ℕ} {key : List Scalar} {start stop : ℤ} (accs : List Accumulator)
    (hn : key.length = n) (hs : fitsI64 start = true) (hst : fitsI64 stop = true) :
    finalOf n (resultRow key start stop accs) = some (encodeKeyValues key, start, stop) := by
  subst hn
  simp [finalOf, resultRow, toInt_ofInt_of_fits hs, toInt_ofInt_of_fits hst]

end Sparrow.Runtime
