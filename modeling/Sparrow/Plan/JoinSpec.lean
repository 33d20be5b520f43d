import Sparrow.Model.Schema
import Sparrow.Model.Window

/-!
# Stream joins: the specification

`sparrow-plan/src/analysis.rs`: what a bounded join of two streams is asked to do, the
checks of `AnalysisPlan::join`, and the schema of its rows. Field and schema numbers are
left out.

## What is proved

* `joinOutput_ok` — what an accepted specification guarantees the operator.
-/

namespace Sparrow.Plan

open Model

/-- Whether a left row without a partner is sent at all. -/
inductive JoinMode where
  | inner
  | left
  deriving DecidableEq, Repr

structure StreamJoinSpec where
  leftInput : ℕ
  rightInput : ℕ
  leftKeys : List String
  rightKeys : List String
  leftTime : String
  rightTime : String
  mode : JoinMode
  beforeMicros : Option Int64
  afterMicros : Option Int64
  windowSizeMicros : Option Int64
  leftPrefix : String
  rightPrefix : String
  maxRowsPerSide : ℕ
  maxMatchesPerRow : ℕ
  maxOutputBytesPerRow : ℕ

def invalidPlan (message : String) : SparrowError := .new .invalidArgument message

namespace StreamJoinSpec

/-- Ports, number of keys, width and resource limits. -/
def limitsOk (spec : StreamJoinSpec) (left right : Schema) : Bool :=
  spec.leftInput ≠ spec.rightInput ∧ (1 ≤ spec.leftKeys.length ∧ spec.leftKeys.length ≤ 8) ∧
    spec.leftKeys.length = spec.rightKeys.length ∧
    left.fields.length + right.fields.length ≤ 128 ∧
    (0 < (utf8Bytes spec.leftPrefix).length ∧ (utf8Bytes spec.leftPrefix).length ≤ 64) ∧
    (0 < (utf8Bytes spec.rightPrefix).length ∧ (utf8Bytes spec.rightPrefix).length ≤ 64) ∧
    (1 ≤ spec.maxRowsPerSide ∧ spec.maxRowsPerSide ≤ 4096) ∧
    (1 ≤ spec.maxMatchesPerRow ∧ spec.maxMatchesPerRow ≤ 4096) ∧
    (1 ≤ spec.maxOutputBytesPerRow ∧ spec.maxOutputBytesPerRow ≤ 16 * 1024 * 1024)

def boundsOk (spec : StreamJoinSpec) : Bool :=
  match spec.windowSizeMicros, spec.beforeMicros, spec.afterMicros with
  | some size, none, none => 0 < (size : ℤ)
  | none, some before, some after => 0 ≤ (before : ℤ) ∧ 0 ≤ (after : ℤ) ∧ fitsI64 (before + after)
  | _, _, _ => false

end StreamJoinSpec

/-- Equal types, and neither nested nor `Dynamic` nor `Null`. Only types without parts pass. -/
def identicalScalarTypes : DataType → DataType → Bool
  | .bool, .bool => true
  | .int64, .int64 => true
  | .uInt64, .uInt64 => true
  | .float64, .float64 => true
  | .utf8, .utf8 => true
  | .bytes, .bytes => true
  | .timestampMicrosUTC, .timestampMicrosUTC => true
  | _, _ => false

/-- `Int64` or `TimestampMicrosUTC`. -/
def isTimeType : DataType → Bool
  | .int64 => true
  | .timestampMicrosUTC => true
  | _ => false

def checkKeyPair (left right : Schema) (leftKey rightKey : String) : Result Unit :=
  match left.fieldByName leftKey with
  | none => .error (invalidPlan "unknown left join key")
  | some l =>
    match right.fieldByName rightKey with
    | none => .error (invalidPlan "unknown right join key")
    | some r =>
      refuseIf (¬ identicalScalarTypes l.dataType r.dataType) (invalidPlan "join keys require identical scalar types")

def checkTime (schema : Schema) (name : String) : Result Unit :=
  match schema.fieldByName name with
  | none => .error (invalidPlan "unknown join timestamp")
  | some f =>
    refuseIf (f.nullable || !isTimeType f.dataType)
      (invalidPlan "join time requires non-null Int64/TimestampMicrosUTC")

/-- The columns of the rows sent: those of both sides under their prefixes, then the time and the
two ordinals. In left mode everything of the right side may be null. -/
def joinFields (spec : StreamJoinSpec) (left right : Schema) : List Field :=
  let outer := spec.mode = .left
  (left.fields.map fun f => { f with name := spec.leftPrefix ++ f.name }) ++
    (right.fields.map fun f => { f with name := spec.rightPrefix ++ f.name, nullable := f.nullable || outer }) ++
    [{ name := "join_time", dataType := .int64, nullable := false },
      { name := "join_left_ordinal", dataType := .int64, nullable := false },
      { name := "join_right_ordinal", dataType := .int64, nullable := outer }]

/-- `AnalysisPlan::join`: the checks, and the schema of the rows sent. -/
def joinOutput (spec : StreamJoinSpec) (left right : Schema) : Result Schema := do
  refuseIf (¬ spec.limitsOk left right) (invalidPlan "invalid bounded Join ports, keys, fields or resource limits")
  refuseIf (¬ spec.boundsOk)
    (invalidPlan
      "Join requires either positive window_size_micros or explicit nonnegative before/after bounds")
  refuseIf (¬ (spec.leftKeys.Nodup ∧ spec.rightKeys.Nodup)) (invalidPlan "join keys must be distinct on each side")
  (spec.leftKeys.zip spec.rightKeys).forM fun (l, r) => checkKeyPair left right l r
  checkTime left spec.leftTime
  checkTime right spec.rightTime
  let output : Schema := { fields := joinFields spec left right }
  output.validate
  return output

theorem joinOutput_ok {spec : StreamJoinSpec} {left right output : Schema}
    (h : joinOutput spec left right = .ok output) :
    spec.limitsOk left right = true ∧ spec.boundsOk = true ∧
      (∀ p ∈ spec.leftKeys.zip spec.rightKeys, checkKeyPair left right p.1 p.2 = .ok ()) ∧
      checkTime left spec.leftTime = .ok () ∧ checkTime right spec.rightTime = .ok () ∧
      output = { fields := joinFields spec left right } ∧ output.validate = .ok () := by
  obtain ⟨hli, h⟩ := guard_eq_ok.mp h
  obtain ⟨hb, h⟩ := guard_eq_ok.mp h
  replace h := after_check h
  obtain ⟨_, hk, h⟩ := bind_eq_ok.mp h
  obtain ⟨_, hl, h⟩ := bind_eq_ok.mp h
  obtain ⟨_, hr, h⟩ := bind_eq_ok.mp h
  obtain ⟨_, hv, h⟩ := bind_eq_ok.mp h
  cases h
  exact ⟨by simpa using hli, by simpa using hb, Result.forM_eq_ok.mp hk, hl, hr, rfl, hv⟩

end Sparrow.Plan
