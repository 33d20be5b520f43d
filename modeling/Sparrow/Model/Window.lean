import Sparrow.Model.Error
import Mathlib.Algebra.GroupWithZero.Nat
import Mathlib.Algebra.Group.Int.Defs
import Mathlib.Data.Fin.Basic

/-!
# Windows and watermarks: the vocabulary

`sparrow-model/src/window.rs` and `sparrow-model/src/watermark.rs`.

Times are microseconds. Configured values have the source's `i64` type; the
operators compute with integers, and every place where the source saturates or
checks for overflow says so (`satAddI`, `satSubI`, `fitsI64`).
-/

namespace Sparrow.Model

/-! ### `i64` arithmetic -/

/-- `i64::MAX`. -/
def i64Max : ℤ := 2 ^ 63 - 1

/-- `i64::MIN`. -/
def i64Min : ℤ := -2 ^ 63

/-- Clamp to the range of `i64`. -/
def clampI64 (z : ℤ) : ℤ := max i64Min (min i64Max z)

/-- `i64::saturating_add`. -/
def satAddI (a b : ℤ) : ℤ := clampI64 (a + b)

/-- `i64::saturating_sub`. -/
def satSubI (a b : ℤ) : ℤ := clampI64 (a - b)

/-- The result of a checked operation is representable. -/
def fitsI64 (z : ℤ) : Bool := i64Min ≤ z ∧ z ≤ i64Max

instance coeInt64 : Coe Int64 ℤ := ⟨Int64.toInt⟩

theorem toInt_le_i64Max (v : Int64) : v.toInt ≤ i64Max := by
  have := Int64.toInt_lt v
  unfold i64Max
  omega

@[simp] theorem fitsI64_iff {z : ℤ} : fitsI64 z = true ↔ i64Min ≤ z ∧ z ≤ i64Max := by
  rw [fitsI64, decide_eq_true_eq]

theorem toInt_ofInt_of_fits {z : ℤ} (h : fitsI64 z = true) : (Int64.ofInt z).toInt = z := by
  obtain ⟨hmi, hm⟩ := fitsI64_iff.mp h
  unfold i64Max at hm
  exact Int64.toInt_ofInt_of_le hmi (by omega)

/-- `i64::checked_add`, with what its caller says on overflow. -/
def checkedAddI (e : SparrowError) (a b : ℤ) : Result ℤ := if fitsI64 (a + b) then .ok (a + b) else .error e

theorem checkedAddI_eq_ok {e : SparrowError} {a b c : ℤ} :
    checkedAddI e a b = .ok c ↔ fitsI64 (a + b) = true ∧ c = a + b := by
  unfold checkedAddI
  split_ifs with h <;> simp [h, eq_comm]

/-! ### Inputs and bindings -/

/-- Stable input identity for watermark tracking. -/
abbrev InputId := Fin (2 ^ 16)

instance InputId.neZero : NeZero (2 ^ 16) := ⟨by decide⟩

/-- A plan with one source uses this identity on all ingress and control paths. -/
def InputId.single : InputId := 0

/-- Whether an input currently participates in the watermark minimum. -/
inductive InputActivity where
  | active
  | idle
  deriving DecidableEq, Repr

/-- How a stream binds event time and generates watermarks. -/
structure EventTimeBinding where
  field : String
  outOfOrdernessMicros : Int64
  maxFutureSkewMicros : Option Int64
  deriving DecidableEq

def defaultMaxFutureSkewMicros : Int64 := 3600000000

/-- `EventTimeBinding::validate`. -/
def EventTimeBinding.validate (b : EventTimeBinding) : Result Unit :=
  if b.field = "" then
    .error (.new .invalidArgument "event-time binding requires a non-empty field name")
  else if (b.outOfOrdernessMicros : ℤ) < 0 then
    .error (.new .invalidArgument "out_of_orderness_micros must be >= 0")
  else if b.maxFutureSkewMicros.any fun skew => (skew : ℤ) < 0 then
    .error (.new .invalidArgument "max_future_skew_micros must be >= 0 when set")
  else .ok ()

/-- Planner cap on the overlap of hopping windows. -/
def defaultMaxHopOverlap : ℕ := 8

def defaultMaxWatermarkInputs : ℕ := 16

/-! ### Window kinds -/

inductive WindowKind where
  | tumblingProcessingTime (sizeMicros : Int64)
  /-- Emit after `size` records per key. -/
  | count (size : ℕ)
  | tumblingEventTime (sizeMicros : Int64)
  /-- Overlapping event-time windows, one every `slideMicros`. -/
  | hoppingEventTime (sizeMicros slideMicros : Int64)
  | hoppingProcessingTime (sizeMicros slideMicros : Int64)
  /-- The last `size` records of a key, every `step` records. -/
  | slidingCount (size step : ℕ)
  /-- One window per record, closed `delayMicros` after it, in processing time. -/
  | slidingProcessingTime (sizeMicros delayMicros : Int64)
  /-- One window per record, closed `delayMicros` after it, in event time. -/
  | slidingEventTime (sizeMicros delayMicros : Int64)
  | sessionProcessingTime (gapMicros maxDurationMicros : Int64)
  | sessionEventTime (gapMicros maxDurationMicros : Int64)
  deriving DecidableEq

namespace WindowKind

def isBuffered : WindowKind → Bool
  | .slidingCount .. | .slidingProcessingTime .. | .slidingEventTime ..
  | .sessionProcessingTime .. | .sessionEventTime .. => true
  | _ => false

/-- New families have a separate, explicitly admitted execution/restore boundary. -/
def isNewWindow : WindowKind → Bool
  | .hoppingProcessingTime .. => true
  | k => k.isBuffered

def isCount : WindowKind → Bool
  | .count _ | .slidingCount .. => true
  | _ => false

def usesProcessingTimeTimer : WindowKind → Bool
  | .tumblingProcessingTime _ | .hoppingProcessingTime .. | .slidingProcessingTime ..
  | .sessionProcessingTime .. => true
  | _ => false

def usesEventTime : WindowKind → Bool
  | .tumblingEventTime _ | .hoppingEventTime .. | .slidingEventTime ..
  | .sessionEventTime .. => true
  | _ => false

/-- Overlapping windows closed by the processing clock. -/
def isPtHopping : WindowKind → Bool
  | .hoppingProcessingTime .. => true
  | _ => false

theorem not_isPtHopping {kind : WindowKind} (h : kind.usesEventTime = true) : kind.isPtHopping = false := by
  cases kind <;> first | rfl | cases h

/-- Size and slide of the kinds with accumulators over event time. -/
def etWindow : WindowKind → Option (Int64 × Option Int64)
  | .tumblingEventTime size => some (size, none)
  | .hoppingEventTime size slide => some (size, some slide)
  | _ => none

theorem usesEventTime_of_etWindow {kind : WindowKind} {size : Int64} {slide : Option Int64}
    (h : kind.etWindow = some (size, slide)) : kind.usesEventTime = true := by
  cases kind <;> first | rfl | cases h

def Slides (kind : WindowKind) (sizeMicros delayMicros : Int64) : Prop :=
  kind = .slidingEventTime sizeMicros delayMicros ∨ kind = .slidingProcessingTime sizeMicros delayMicros

def IsSession (kind : WindowKind) (gapMicros maxDurationMicros : Int64) : Prop :=
  kind = .sessionEventTime gapMicros maxDurationMicros ∨ kind = .sessionProcessingTime gapMicros maxDurationMicros

/-- The check of `WindowKind::sliding_count`. -/
def checkSlidingCount (size step : ℕ) : Result Unit :=
  if size = 0 ∨ step = 0 ∨ step > size ∨ (size : ℤ) > i64Max then
    .error (.new .invalidArgument "sliding count requires 1 <= step <= size <= i64::MAX")
  else .ok ()

/-- The check of `WindowKind::sliding`. -/
def checkSliding (sizeMicros delayMicros : Int64) : Result Unit :=
  if (sizeMicros : ℤ) ≤ 0 ∨ (delayMicros : ℤ) < 0 ∨ ¬ fitsI64 (sizeMicros + delayMicros) then
    .error (.new .invalidArgument
      "sliding requires positive size, nonnegative delay and representable span")
  else .ok ()

/-- The check of `WindowKind::session`. -/
def checkSession (gapMicros maxDurationMicros : Int64) : Result Unit :=
  if (gapMicros : ℤ) ≤ 0 ∨ (maxDurationMicros : ℤ) ≤ 0 then
    .error (.new .invalidArgument "session requires positive gap and maximum duration")
  else .ok ()

/-- The check of `WindowKind::hopping_et`. -/
def checkHopping (sizeMicros slideMicros : Int64) : Result Unit :=
  if (sizeMicros : ℤ) ≤ 0 ∨ (slideMicros : ℤ) ≤ 0 then
    .error (.new .invalidArgument "hopping size_micros and slide_micros must be > 0")
  else if (slideMicros : ℤ) > sizeMicros then
    .error (.new .invalidArgument "hopping slide_micros must be <= size_micros (no gaps)")
  else .ok ()

end WindowKind

/-- `ceil(size / slide)` concurrent windows per event. -/
def hopOverlap (sizeMicros slideMicros : Int64) : Result ℕ :=
  if (sizeMicros : ℤ) ≤ 0 ∨ (slideMicros : ℤ) ≤ 0 then
    .error (.new .invalidArgument "hop overlap requires size > 0 and slide > 0")
  else
    let q := (sizeMicros : ℤ) / slideMicros
    let n := if (sizeMicros : ℤ) % slideMicros = 0 then q else q + 1
    if n ≤ 0 ∨ n > 2 ^ 32 - 1 then
      .error (.new .boundExceeded "hop overlap is not representable")
    else .ok n.toNat

def assignTumble (ts : ℤ) (sizeMicros : Int64) : Result (ℤ × ℤ) :=
  if (sizeMicros : ℤ) ≤ 0 then .error (.new .invalidArgument "window size must be > 0")
  else
    let start := clampI64 (ts / sizeMicros * sizeMicros)
    .ok (start, satAddI start sizeMicros)

/-- The loop of `assign_hop`: windows from `start` downwards as long as they may cover
`ts`. -/
def hopsFrom (ts size slide : ℤ) (maxOverlap : ℕ) : ℕ → ℤ → List (ℤ × ℤ) → Result (List (ℤ × ℤ))
  | 0, _, out => .ok out
  | n + 1, start, out =>
    if start > satSubI ts size then
      let out := if ts ≥ start ∧ ts < satAddI start size then out ++ [(start, satAddI start size)] else out
      let next := satSubI start slide
      if next = start then .ok out
      else if out.length > maxOverlap then
        .error (.new .boundExceeded "hopping assignment exceeded overlap cap")
      else hopsFrom ts size slide maxOverlap n next out
    else .ok out

/-- The hopping windows that cover `ts`. As many rounds as windows overlap are enough for
the loop to end. -/
def assignHop (ts : ℤ) (sizeMicros slideMicros : Int64) (maxOverlap : ℕ) : Result (List (ℤ × ℤ)) := do
  let overlap ← hopOverlap sizeMicros slideMicros
  let size := sizeMicros.toInt
  let slide := slideMicros.toInt
  refuseIf (overlap > maxOverlap) (.new .boundExceeded
    s!"hopping overlap {overlap} exceeds planner max_overlap {maxOverlap} (size={size} slide={slide})")
  let last := clampI64 (ts / slide * slide)
  let out ← hopsFrom ts size slide maxOverlap (overlap + 1) last []
  if ts ≥ last ∧ ts < satAddI last size ∧ ¬ out.any fun w => w.1 = last then
    return (last, satAddI last size) :: out
  else return out

/-- `check_hop_overlap_bound`. -/
def checkHopOverlapBound (sizeMicros slideMicros : Int64) (maxOverlap : ℕ) : Result ℕ := do
  let n ← hopOverlap sizeMicros slideMicros
  let cap := if maxOverlap = 0 then defaultMaxHopOverlap else maxOverlap
  if n > cap then
    let size := sizeMicros.toInt
    let slide := slideMicros.toInt
    .error (.new .boundExceeded
      s!"planner rejected hopping window: overlap {n} = ceil({size}/{slide}) > max_overlap {cap}")
  else return n

/-- Output watermark holdback: `wm_out <= wm_in - L`. -/
def holdbackWmOut (wmIn : ℤ) (latenessMicros : Int64) : Result ℤ :=
  if (latenessMicros : ℤ) < 0 then
    .error (.new .invalidArgument "lateness / holdback L must be >= 0")
  else .ok (max (satSubI wmIn latenessMicros) 0)

/-- Incremental aggregate function. -/
inductive AggFn where
  | count
  | sum
  | avg
  | min
  | max
  | first
  | last
  | varPop
  | varSamp
  | stddevPop
  | stddevSamp
  deriving DecidableEq, Repr

/-- The functions added after the first codec. -/
def AggFn.isExtended : AggFn → Bool
  | .first | .last | .varPop | .varSamp | .stddevPop | .stddevSamp => true
  | _ => false

end Sparrow.Model
