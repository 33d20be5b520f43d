import Sparrow.Library.Emits
import Sparrow.Plan.JoinSpec
import Sparrow.Runtime.WindowOperator

/-!
# The bounded stream join

`sparrow-runtime/src/bounded_join.rs`: the rows of two streams that may still find a
partner, kept under the order of their arrival and dropped once the other side's
watermark has passed their close time.

## The model

The pairs `[_; 2]` of the source are functions of a `Side`. The memory owner is seen
through what it answers (`Grants`), asked at the source's places in the source's order.
A lease is as large as what was asked for, so the byte total the source keeps up to date
is the sum it stands for (`state`). Indexing a map with a key it does
not have is a panic of the source, and an internal error here.
-/

namespace Sparrow.Runtime

open Library Model Plan

/-- The two inputs of a join. -/
inductive Side where
  | left
  | right
  deriving DecidableEq, Repr

namespace Side

/-- `1 - side`. -/
def other : Side → Side
  | .left => .right
  | .right => .left

/-- A thing of this side and one of the other, left first. -/
def orient {α : Type} (side : Side) (a b : α) : α × α :=
  match side with
  | .left => (a, b)
  | .right => (b, a)

@[simp] theorem other_other (side : Side) : side.other.other = side := by cases side <;> rfl

@[simp] theorem other_ne (side : Side) : side.other ≠ side := by cases side <;> decide

@[simp] theorem ne_other (side : Side) : side ≠ side.other := side.other_ne.symm

theorem eq_or_eq_other (side side' : Side) : side' = side ∨ side' = side.other := by
  cases side <;> cases side' <;> simp [other]

@[simp] theorem orient_other {α : Type} (side : Side) (a b : α) : side.other.orient a b = side.orient b a := by
  cases side <;> rfl

end Side

structure JoinRecord where
  row : Row
  key : Bytes
  time : ℤ
  expires : ℤ
  ordinal : ℕ
  matched : Bool
  matchable : Bool

/-- A row that has been checked and paid for. -/
structure Pending where
  record : JoinRecord
  newKey : Bool

/-- What of a join never changes. -/
structure JoinConfig where
  spec : StreamJoinSpec
  schemas : Side → Schema
  output : Schema
  keyIndices : Side → List ℕ
  timeIndices : Side → ℕ
  maxKeys : ℕ
  durable : Bool

/-- The operator. -/
structure BoundedJoin extends JoinConfig where
  rows : Side → SortedMap ℕ JoinRecord
  keys : SortedMap Bytes ℕ
  sequence : Side → ℕ
  watermarks : Side → Option ℤ

def invalidJoin (message : String) : SparrowError := .new .invalidArgument message

def joinBound (message : String) : SparrowError := .new .boundExceeded message

/-- What retaining a row costs in recoverable state. -/
def rowCredit (values : List Scalar) : ℕ :=
  satAdd (satMul (satAdd (values.map Scalar.residentBytes).sum (rowSize + 32)) 8) 4096

namespace JoinConfig

variable (c : JoinConfig)

def rowCharge (row : Row) : ℕ :=
  if c.durable then rowCredit row.values else satAdd (satMul row.residentBytes 4) 2048

def keyCharge (key : Bytes) : ℕ := if c.durable then 1 else satAdd (satMul key.length 2) 2048

def keyValues (side : Side) (row : Row) : List Scalar := (c.keyIndices side).map fun i => row.values.getD i .null

/-- When a row of that time has no partner any more; `none` if that is no `i64`. -/
def closeTime (side : Side) (time : ℤ) : Option ℤ :=
  let t := match c.spec.windowSizeMicros with
    | some size => time / size * size + size
    | none => time + (match side with
      | .left => (c.spec.afterMicros.getD 0 : ℤ)
      | .right => (c.spec.beforeMicros.getD 0 : ℤ)) + 1
  if fitsI64 t then some t else none

/-- The times of a left and of a right row allow them to be a pair. -/
def timesMatch (l r : ℤ) : Bool :=
  match c.spec.windowSizeMicros with
  | some size => l / size = r / size
  | none => -(c.spec.beforeMicros.getD 0 : ℤ) ≤ r - l ∧ r - l ≤ (c.spec.afterMicros.getD 0 : ℤ)

/-- A row of this side and one of the other are a pair. -/
def matchRecords (side : Side) (a b : JoinRecord) : Bool :=
  a.matchable && b.matchable && a.key == b.key &&
    c.timesMatch (side.orient a b).1.time (side.orient a b).2.time

def outputBound (l : JoinRecord) (r : Option JoinRecord) (width : ℕ) : ℕ :=
  satAdd (satAdd (satAdd l.row.residentBytes (r.elim 0 (·.row.residentBytes))) (satMul width scalarSize)) 256

/-- The row sent for a pair, or for a left row without partner. -/
def outputRow (l : JoinRecord) (r : Option JoinRecord) : Row where
  values := l.row.values ++ (match r with
      | some r => r.row.values
      | none => List.replicate (c.schemas .right).fields.length .null) ++
    [.int64 (.ofInt (r.elim l.time fun r => max r.time l.time)), .int64 (.ofInt l.ordinal),
      r.elim .null fun r => .int64 (.ofInt r.ordinal)]

/-- `batch`. -/
def batch (grants : Grants) (l : JoinRecord) (r : Option JoinRecord) : Result RowBatch := do
  grants .scratch .reservation (satMul (outputBound l r c.output.fields.length) 3)
  finishRowMetered c.output (c.outputRow l r) grants

end JoinConfig

namespace BoundedJoin

def new (spec : StreamJoinSpec) (left right : Schema) (budgetKeys maxKeys : ℕ) : Result BoundedJoin := do
  let output ← joinOutput spec left right
  return {
    spec, output, maxKeys := min maxKeys budgetKeys, durable := false
    schemas := fun | .left => left | .right => right
    -- the plan has checked that the columns exist
    keyIndices := fun
      | .left => spec.leftKeys.map fun k => (left.indexOfName k).getD 0
      | .right => spec.rightKeys.map fun k => (right.indexOfName k).getD 0
    timeIndices := fun
      | .left => (left.indexOfName spec.leftTime).getD 0
      | .right => (right.indexOfName spec.rightTime).getD 0
    rows := fun _ => .empty, keys := .empty, sequence := fun _ => 0, watermarks := fun _ => none }

variable (j : BoundedJoin)

def setDurable : BoundedJoin := { j with durable := true }

def retained : ℕ := (j.rows .left).size + (j.rows .right).size

/-- The number of distinct keys, and the bytes leased. -/
def state : ℕ × ℕ :=
  (j.keys.size, ((j.rows .left).entries.map fun e => j.rowCharge e.2.row).sum +
    ((j.rows .right).entries.map fun e => j.rowCharge e.2.row).sum + (j.keys.entries.map fun e => j.keyCharge e.1).sum)

variable (side : Side)

def setRows (rows : SortedMap ℕ JoinRecord) : BoundedJoin :=
  { j with rows := Function.update j.rows side rows }

def advance (time : ℤ) : Result BoundedJoin :=
  if time < 0 then .error (invalidJoin "negative join watermark")
  else
    let wm := (j.watermarks side).elim time fun old => max old time
    .ok { j with watermarks := Function.update j.watermarks side (some wm) }

/-- The watermark of the rows sent: nothing older will follow. -/
def progress : Option ℤ := do
  let l ← j.watermarks .left
  let r ← j.watermarks .right
  if j.spec.mode = .left then
    return ((j.rows .left).entries.filter fun e => !e.2.matched).foldl (fun p e => min p e.2.time) (min l r)
  else return min l r

/-- Check a row and pay for it; `none` if it is too far in the future. -/
def prepare (row : Row) (now : ℤ) (grants : Grants) : Result (Option Pending) := do
  refuseIf (row.values.length ≠ (j.schemas side).fields.length) (invalidJoin "join row/schema mismatch")
  match ((asEventTimeMicros (row.values.getD (j.timeIndices side) .null)).filter fun t => 0 ≤ t) with
  | none => .error (invalidJoin "invalid join timestamp")
  | some time =>
    if time > satAddI now defaultMaxFutureSkewMicros then return none
    else
      refuseIf ((j.watermarks side).any fun wm => time < wm)
        (invalidJoin "join input is late relative to its own watermark; v1 late policy is error")
      refuseIf ((j.rows side).size ≥ j.spec.maxRowsPerSide) (joinBound "join side row limit exceeded")
      refuseIf (j.durable ∧ j.retained ≥ j.maxKeys)
        (joinBound "durable Join total retained rows exceed max_state_keys")
      refuseIf (i64Max < (j.sequence side + 1 : ℕ)) (joinBound "join ordinal exhausted")
      match j.closeTime side time with
      | none => .error (.new .integerOverflow "join close time overflow")
      | some expires =>
        grants .event .retention (j.rowCharge row)
        let values := j.keyValues side row
        let key := encodeKeyValues values
        let newKey := (j.keys.get? key).isNone
        if newKey then
          refuseIf (j.keys.size ≥ j.maxKeys) (joinBound "join distinct key limit exceeded")
          grants .key .retention (j.keyCharge key)
        return some
          { newKey
            record :=
              { row, key, time, expires, ordinal := j.sequence side + 1, matched := false
                matchable := values.all fun v => !v.isNull && !v.isNaN } }

/-- The partners of a row among the retained ones, in the order of their ordinals. -/
def partners (record : JoinRecord) : List (ℕ × JoinRecord) :=
  (j.rows side.other).entries.filter fun e => j.matchRecords side record e.2

/-- The next partner after that ordinal. -/
def nextMatch (pending : Pending) (after : ℕ) : Option ℕ :=
  (((j.rows side.other).entries.filter fun e => after < e.1).find? fun e =>
    j.matchRecords side pending.record e.2).map (·.1)

/-- The loop of `check_fanout` over the partners, from what has been counted. -/
def fanoutFrom (record : JoinRecord) (count bytes : ℕ) : List (ℕ × JoinRecord) → Result Unit
  | [] => .ok ()
  | (_, other) :: rest =>
    let bytes := satAdd bytes (JoinConfig.outputBound record (some other) j.output.fields.length)
    if count + 1 > j.spec.maxMatchesPerRow ∨ bytes > j.spec.maxOutputBytesPerRow then
      .error (joinBound "join output fan-out/byte limit exceeded")
    else fanoutFrom record (count + 1) bytes rest

/-- What would be sent for the row is within bounds; for a left row also if it stays alone. -/
def checkFanout (pending : Pending) : Result Unit := do
  j.fanoutFrom pending.record 0 0 (j.partners side pending.record)
  refuseIf (side = .left ∧ j.spec.mode = .left ∧
      JoinConfig.outputBound pending.record none j.output.fields.length > j.spec.maxOutputBytesPerRow)
    (joinBound "left-unmatched output exceeds byte limit")

def emitMatch (pending : Pending) (other : ℕ) (grants : Grants) :
    Result (RowBatch × BoundedJoin × Pending) :=
  match (j.rows side.other).get? other with
  | none => .error (.new .internal "no entry found for key")
  | some record => do
    let pair := side.orient pending.record record
    let output ← j.batch grants pair.1 (some pair.2)
    return (output, j.setRows side.other ((j.rows side.other).modify other fun r => { r with matched := true }),
      { pending with record := { pending.record with matched := true } })

def insert (side : Side) (pending : Pending) : BoundedJoin :=
  let record := pending.record
  let keys := if pending.newKey then j.keys.insert record.key 0 else j.keys
  { j.setRows side ((j.rows side).insert record.ordinal record) with
    keys := keys.modify record.key (· + 1)
    sequence := Function.update j.sequence side record.ordinal }

/-- The first row of a side that the other side's watermark has passed. -/
def expiredOn : Option ℕ :=
  (j.watermarks side.other).bind fun wm => ((j.rows side).entries.find? fun e => e.2.expires ≤ wm).map (·.1)

def expired : Option (Side × ℕ) :=
  ((j.expiredOn .left).map (Side.left, ·)).or ((j.expiredOn .right).map (Side.right, ·))

/-- What is sent when a row is closed: in left mode, a left row that never had a partner. -/
def closeOutput (r : JoinRecord) (grants : Grants) : Result (Option RowBatch) :=
  if side = .left ∧ j.spec.mode = .left ∧ r.matched = false then (j.batch grants r none).map some else .ok none

def close (id : ℕ) (grants : Grants) : Result (Option RowBatch × BoundedJoin) :=
  match (j.rows side).get? id with
  | none => .error (.new .internal "no entry found for key")
  | some r => do
    let output ← j.closeOutput side r grants
    let keys := j.keys.modify r.key (· - 1)
    return (output, { j.setRows side ((j.rows side).erase id) with
        keys := if keys.get? r.key = some 0 then keys.erase r.key else keys })

end BoundedJoin

end Sparrow.Runtime
