import Sparrow.Library.Codec
import Sparrow.Model.ValueCodec
import Sparrow.Runtime.BoundedJoin

/-!
# Recoverable analysis state

`sparrow-runtime/src/analysis_state.rs` (the ANF1 frame), the `Progress` of
`graph_cut.rs`, and the freezing and restoring of `bounded_join.rs`.

## The model

Frames are always materialized: the scan that only counts reads the same grammar. The
resident size that the frame reserves for its restore is kept.
-/

namespace Sparrow.Runtime

open Library Model Plan Parser

/-! ### Progress of an input -/

/-- `graph_cut::invalid`. -/
def invalidGraph (message : String) : SparrowError := .new .unsupportedRestore ("durable graph time: " ++ message)

/-- How far a stream has come. -/
structure Progress where
  watermark : Option ℤ
  idle : Bool
  eof : Bool
  deriving DecidableEq, Repr

namespace Progress

def fresh : Progress := { watermark := none, idle := false, eof := false }

def validate (p : Progress) : Result Unit :=
  refuseIf ((p.watermark.any fun v => v < 0) || (p.eof && !p.idle)) (invalidGraph "invalid input progress")

def flags (p : Progress) : ℕ := p.idle.toNat + 2 * p.eof.toNat

def fromControl (watermarkMicros : ℤ) (flags : ℕ) : Result Progress := do
  refuseIf (watermarkMicros < -1 ∨ 3 < flags) (invalidGraph "invalid graph progress control")
  let value : Progress :=
    { watermark := if watermarkMicros ≠ -1 then some watermarkMicros else none
      idle := flags % 2 ≠ 0, eof := flags / 2 % 2 ≠ 0 }
  value.validate
  return value

end Progress

/-! ### Frames -/

/-- A retained row as it was frozen. -/
structure JoinRowFreeze where
  ordinal : ℕ
  matched : Bool
  row : Row

/-- The state of an analysis operator. -/
inductive AnalysisData where
  | unnest (sequences : List (Option ℕ × ℕ))
  | join (sequences : Side → ℕ) (inputs : Side → Progress) (emitted : Progress) (rows : Side → List JoinRowFreeze)

/-- A decoded frame. -/
structure AnalysisFreeze where
  operator : ℕ
  data : AnalysisData
  resident : ℕ

def fixedResident : ℕ := 32 * 1024

/-- The state does not belong to this operator or cut. -/
def profileMismatch (message : String) : SparrowError :=
  (SparrowError.new .unsupportedRestore message).withContext "checkpoint_guard" "analysis_profile_mismatch"

def invalidFrame (message : String) : SparrowError := .new .codecViolation message

def residentCredit (values : ℕ) : ℕ := satAdd (satMul (satAdd values (rowSize + 32)) 8) 4096

/-- `encoded_scalar_resident`: the size of a value, from its encoding. -/
def encodedScalarResident (encoded : Bytes) : ℕ :=
  satAdd scalarSize (match encoded.head? with
    | some tag => if tag = 5 ∨ tag = 6 then satAdd (encoded.length - 5) 48 else 0
    | none => 0)

/-! ### Writing -/

/-- The head of a frame: operator, slot, kind, number of entries and grammar. -/
def frameHeader (operator kind entries limit : ℕ) : Result Bytes := do
  refuseIf (entries > limit) (.new .boundExceeded "analysis freeze exceeds state entry bound")
  return leBytes 4 operator ++ leBytes 2 4 ++ leBytes 1 kind ++ leBytes 4 entries ++ [0x41, 0x4e, 0x46, 0x31]

/-- A `u64` as eight bytes, from the `i64` it is cast from. -/
def putI64 (v : ℤ) : Bytes := leBytes 8 (v % 2 ^ 64).toNat

/-- A progress: its watermark or `-1`, and its flags. -/
def putProgress (p : Progress) : Bytes := putI64 (p.watermark.getD (-1)) ++ leBytes 1 p.flags

def putValues (values : List Scalar) : Result Bytes := do
  let encoded ← values.mapM encodeValue
  return encoded.flatten

def putRecord (record : JoinRecord) : Result Bytes := do
  let values ← putValues record.row.values
  return leBytes 8 record.ordinal ++ leBytes 1 record.matched.toNat ++ leBytes 2 record.row.values.length ++ values

def putRows (rows : SortedMap ℕ JoinRecord) : Result Bytes := do
  let encoded ← rows.entries.mapM fun e => putRecord e.2
  return leBytes 4 rows.size ++ encoded.flatten

/-- `encode_state`. -/
def BoundedJoin.encodeState (j : BoundedJoin) (operator : ℕ) (inputs : Side → Progress) (emitted : Progress)
    (limit : ℕ) : Result Bytes := do
  refuseIf (¬ j.durable) (profileMismatch "fresh Join cannot encode recovery state")
  let header ← frameHeader operator 11 j.retained limit
  let left ← putRows (j.rows .left)
  let right ← putRows (j.rows .right)
  return header ++ leBytes 8 (j.sequence .left) ++ leBytes 8 (j.sequence .right) ++
    putProgress (inputs .left) ++ putProgress (inputs .right) ++ putProgress emitted ++ left ++ right

/-! ### Reading -/

/-- The next `n` bytes of a frame. -/
def takeFrame (n : ℕ) : Parser SparrowError Bytes := take n (invalidFrame "truncated analysis frame")

/-- A word of `w` bytes. -/
def word (w : ℕ) : Parser SparrowError ℕ := do return ofLeBytes (← takeFrame w)

/-- A `u64`. -/
def number : Parser SparrowError ℕ := word 8

/-- A `u64` read as `i64`. -/
def toI64 (n : ℕ) : ℤ := if n < 2 ^ 63 then n else (n : ℤ) - 2 ^ 64

/-- A progress; whatever is wrong with it is one error. -/
def progressFrame : Parser SparrowError Progress := do
  let watermark ← number
  let flags ← word 1
  match Progress.fromControl (toI64 watermark) flags with
  | .ok p => return p
  | .error _ => fail (invalidFrame "invalid analysis progress")

/-- The head of a frame: operator, slot, kind and number of entries. -/
def parseHeader : Parser SparrowError (ℕ × ℕ × ℕ × ℕ) := do
  let head ← take 11 (invalidFrame "truncated window freeze")
  return (ofLeBytes (head.take 4), ofLeBytes ((head.drop 4).take 2), ofLeBytes ((head.drop 6).take 1),
    ofLeBytes (head.drop 7))

def valueFrame : Parser SparrowError (Scalar × ℕ) := do
  refuse (fun src => src.head? = some 1 && !(src[1]? == some 0 || src[1]? == some 1))
    (invalidFrame "noncanonical Join Bool")
  let before ← get
  let v ← (decodeValue : Parser SparrowError Scalar)
  let after ← get
  return (v, encodedScalarResident (before.take (before.length - after.length)))

/-- The values of a row; the state is their size so far. -/
def valuesFrame (width : ℕ) : Parser SparrowError (List Scalar × ℕ) :=
  many (fun size => do
    let (v, n) ← valueFrame
    return (v, satAdd size n)) width 0

/-- A retained row; the state is the last ordinal and the resident size so far. -/
def rowFrame (sequence : ℕ) (s : ℕ × ℕ) : Parser SparrowError (JoinRowFreeze × ℕ × ℕ) := do
  let ordinal ← number
  refuse (fun _ => ordinal ≤ s.1 || sequence < ordinal) (invalidFrame "Join row ordinal out of order/range")
  let flag ← word 1
  refuse (fun _ => 1 < flag) (invalidFrame "invalid Join matched flag")
  let width ← word 2
  refuse (fun src => width = 0 || 128 < width || src.length < width) (invalidFrame "invalid Join row width")
  let (values, size) ← valuesFrame width
  return ({ ordinal, matched := flag = 1, row := { values } }, ordinal, satAdd s.2 (satAdd (residentCredit size) 1))

/-- The retained rows of a side, `total` having been read before. -/
def rowsFrame (sequence entries total resident : ℕ) : Parser SparrowError (List JoinRowFreeze × ℕ × ℕ) := do
  let count ← word 4
  refuse
    (fun src => 4096 < count || entries < total + count || sequence < count || src.length < satMul count 12)
    (invalidFrame "Join retained row count exceeds frame/sequence bound")
  let (rows, _, resident) ← many (rowFrame sequence) count (0, resident)
  return (rows, total + count, resident)

def joinFrame (entries : ℕ) : Parser SparrowError (AnalysisData × ℕ) := do
  let l ← number
  let r ← number
  refuse (fun _ => i64Max < l || i64Max < r) (invalidFrame "Join sequence overflow")
  let left ← progressFrame
  let right ← progressFrame
  let emitted ← progressFrame
  refuse (fun _ => emitted.eof != (left.eof && right.eof) || emitted.idle != emitted.eof)
    (invalidFrame "Join emitted activity mismatch")
  let (leftRows, total, resident) ← rowsFrame l entries 0 fixedResident
  let (rightRows, total, resident) ← rowsFrame r entries total resident
  refuse (fun _ => total ≠ entries) (invalidFrame "Join frame entry count mismatch")
  return (.join (fun | .left => l | .right => r) (fun | .left => left | .right => right) emitted
    (fun | .left => leftRows | .right => rightRows), resident)

/-- A source of an UNNEST; the state is the last one read. -/
def sourceFrame (last : Option (Option ℕ)) : Parser SparrowError ((Option ℕ × ℕ) × Option (Option ℕ)) := do
  let tag ← word 1
  let source ← match tag with
    | 0 => pure none
    | 1 => some <$> word 4
    | _ => fail (invalidFrame "invalid UNNEST source tag")
  let sequence ← number
  refuse (fun _ => sequence = 0 || i64Max < sequence || last.any fun p => match p, source with
      | _, none => true
      | none, some _ => false
      | some p, some s => s ≤ p)
    (invalidFrame "invalid UNNEST source sequence/order")
  return ((source, sequence), some source)

def unnestFrame (entries : ℕ) : Parser SparrowError (AnalysisData × ℕ) := do
  refuse (fun _ => 64 < entries) (invalidFrame "UNNEST source count exceeds 64")
  let (sequences, _) ← many sourceFrame entries none
  return (.unnest sequences, fixedResident)

/-- `AnalysisFreeze::decode`. -/
def AnalysisFreeze.decode (limit : ℕ) : Parser SparrowError AnalysisFreeze := do
  let (operator, slot, kind, entries) ← parseHeader
  let grammar ← (fun src => if slot ≠ 4 ∨ (kind ≠ 10 ∧ kind ≠ 11) then
      .error (profileMismatch "analysis frame identity/grammar mismatch") else takeFrame 4 src :
        Parser SparrowError Bytes)
  refuse (fun _ => grammar ≠ [0x41, 0x4e, 0x46, 0x31])
    (profileMismatch "analysis frame identity/grammar mismatch")
  refuse (fun _ => limit < entries) (.new .boundExceeded "analysis state entry bound")
  let (data, resident) ← if kind = 10 then unnestFrame entries else joinFrame entries
  return { operator, data, resident }

/-! ### Restoring -/

/-- The value fits its column, as the restore checks it. -/
def fitsColumn (v : Scalar) (f : Field) : Bool := if v.isNull then f.nullable else v.matchesType f.dataType

namespace BoundedJoin

def restoreRow (side : Side) (grants : ℕ → Grants) (j : BoundedJoin) (saved : JoinRowFreeze) : Result BoundedJoin := do
  refuseIf (saved.row.values.length ≠ (j.schemas side).fields.length ∨
      ¬ (saved.row.values.zip (j.schemas side).fields).all fun (v, f) => fitsColumn v f)
    (profileMismatch "Join restored row schema mismatch")
  let j := { j with sequence := Function.update j.sequence side (saved.ordinal - 1) }
  match ← j.prepare side saved.row i64Max (grants saved.ordinal) with
  | none => .error (profileMismatch "Join restored row unexpectedly rejected")
  | some pending =>
    refuseIf (saved.matched ∧ ¬ pending.record.matchable) (profileMismatch "unmatchable Join key marked matched")
    return j.insert side { pending with record := { pending.record with matched := saved.matched } }

def inputWatermark (p : Progress) : Option ℤ := if p.eof then some i64Max else p.watermark

def advanceTo (side : Side) (p : Progress) (j : BoundedJoin) : Result BoundedJoin :=
  match inputWatermark p with
  | some wm => j.advance side wm
  | none => .ok j

/-- `restore_state`. -/
def restoreState (j : BoundedJoin) (grants : Side → ℕ → Grants) (freeze : AnalysisFreeze) :
    Result (BoundedJoin × (Side → Progress) × Progress) := do
  refuseIf (¬ j.durable ∨ j.retained ≠ 0) (profileMismatch "Join restore requires a fresh durable operator")
  match freeze.data with
  | .unnest _ => .error (profileMismatch "Join received an UNNEST frame")
  | .join sequences inputs emitted rows => do
    let j ← (rows .left).foldlM (restoreRow .left (grants .left)) j
    let j ← (rows .right).foldlM (restoreRow .right (grants .right)) j
    let j := { j with sequence := sequences }
    let j ← j.advanceTo .left (inputs .left)
    let j ← j.advanceTo .right (inputs .right)
    refuseIf (j.expired.isSome ∨ emitted.watermark ≠ j.progress)
      (profileMismatch "Join state/expiry/output watermark disagrees with committed cut")
    return (j, inputs, emitted)

end BoundedJoin

end Sparrow.Runtime
