import Sparrow.Checkpoint.AnalysisFreeze

/-!
# The ordered join executor

`sparrow-runtime/src/kernel/ordered_join.rs`: collect a round from both ports, then
execute it, the left port's items before the right port's. A barrier is only taken
between rounds.

## The model

What the task sends and records is its log (`JoinEvent`); what was sent before an error
stays sent (`Emits`). The log also has what only a proof looks at: the rows that were
accepted, and the mark of the check that the output watermark never moves back. The
surroundings answer for memory, the wall clock observed with each decision, and the
checkpoint coordinator. Which port is read next is up to the schedule: a run is any list
of envelopes with their ports, and a port that is done or behind a barrier is not read.
The work budget, cancellation and a receiver that has gone away only end a run early and
are left out.
-/

namespace Sparrow.Runtime

open Library Model Plan

/-- What the task sends downstream or records. -/
inductive JoinEvent where
  | processingTime (micros : ℤ)
  | row (batch : RowBatch)
  | progress (p : Progress)
  | roundEnd (sequence : ℕ)
  | frozen (checkpoint : ℕ) (freeze : Result Bytes)
  | barrier (checkpoint : ℕ)
  | futureDropped
  | accepted (side : Side) (record : JoinRecord)
  | regressed

abbrev JoinTaskM := Emits JoinEvent SparrowError

/-- What the surroundings answer while one row or control is handled. -/
structure Credits where
  now : ℤ
  admission : Grants
  emit : ℕ → Grants
  close : Side → ℕ → Grants

def Credits.all (now : ℤ) : Credits where
  now := now
  admission := .all
  emit := fun _ => .all
  close := fun _ _ => .all

/-! ### Rows -/

namespace BoundedJoin

/-- Send a row with each of its partners; `after` is the last one. Each round of the loop takes a
later partner, so the number of retained rows bounds it. -/
def emitMatches (side : Side) (grants : ℕ → Grants) : ℕ → ℕ → BoundedJoin → Pending → JoinTaskM (BoundedJoin × Pending)
  | 0, _, j, pending => pure (j, pending)
  | n + 1, after, j, pending =>
    match j.nextMatch side pending after with
    | none => pure (j, pending)
    | some id => do
      let (batch, j, pending) ← .lift (j.emitMatch side pending id (grants id))
      .emit (.row batch)
      emitMatches side grants n id j pending

/-- A row of an input, up to its insertion; `none` if it is too far in the future. -/
def pushRow (j : BoundedJoin) (side : Side) (row : Row) (credits : Credits) : JoinTaskM (Option BoundedJoin) := do
  match ← .lift (j.prepare side row credits.now credits.admission) with
  | none =>
    .emit .futureDropped
    return none
  | some pending =>
    .lift (j.checkFanout side pending)
    .emit (.accepted side pending.record)
    let (j, pending) ← emitMatches side credits.emit (j.rows side.other).size 0 j pending
    return some (j.insert side pending)

/-- Close every expired row. Each round of the loop drops one, so their number bounds it. -/
def closeExpired (grants : Side → ℕ → Grants) : ℕ → BoundedJoin → JoinTaskM BoundedJoin
  | 0, j => pure j
  | n + 1, j =>
    match j.expired with
    | none => pure j
    | some (side, id) => do
      let (output, j) ← .lift (j.close side id (grants side id))
      match output with
      | some batch =>
        .emit (.row batch)
        closeExpired grants n j
      | none => closeExpired grants n j

end BoundedJoin

/-! ### Items -/

/-- What a round buffers. -/
inductive Item where
  | data (rows : List Row)
  | progress (p : Progress)

/-- The operator with the progress of its inputs and the one it has sent. -/
structure JoinState where
  op : BoundedJoin
  states : Side → Progress
  emitted : Progress

def movesBack (old new : Progress) : Bool := old.watermark.any fun v => new.watermark.all fun w => w < v

namespace JoinState

/-- Before anything has been read. -/
def fresh (op : BoundedJoin) : JoinState := { op, states := fun _ => .fresh, emitted := .fresh }

def eof (s : JoinState) : Bool := (s.states .left).eof && (s.states .right).eof

/-- Close what has expired, then say how far the output has come. -/
def drain (credits : Credits) (s : JoinState) : JoinTaskM JoinState := do
  let op ← BoundedJoin.closeExpired credits.close s.op.retained s.op
  -- idle never establishes absence, so the join is active until both inputs have ended
  let next : Progress := { watermark := op.progress, idle := s.eof, eof := s.eof }
  if movesBack s.emitted next then
    .emit .regressed
    .lift (.error (invalidGraph "Join output watermark moved backwards"))
  else if next ≠ s.emitted then
    .emit (.progress next)
    return { s with op, emitted := next }
  else return { s with op }

def dataRow (side : Side) (credits : ℕ → Credits) (s : JoinState) (row : Row × ℕ) : JoinTaskM JoinState := do
  match ← s.op.pushRow side row.1 (credits row.2) with
  | none => return s
  | some op => drain (credits row.2) { s with op }

def item (side : Side) (credits : ℕ → Credits) (s : JoinState) : Item → JoinTaskM JoinState
  | .progress next => do
    .lift (refuseIf (((s.states side).eof && !next.eof) || movesBack (s.states side) next)
      (invalidGraph "Join source progress moved backwards"))
    let op ← .lift (s.op.advanceTo side next)
    drain (credits 0) { s with op, states := Function.update s.states side next }
  | .data rows => do
    .lift (refuseIf (s.states side).eof (invalidGraph "Join data after EOF"))
    let s ← Emits.foldM (dataRow side credits) s rows.zipIdx
    drain (credits rows.length) s

def items (side : Side) (credits : ℕ → ℕ → Credits) (s : JoinState) (buffer : List Item) : JoinTaskM JoinState :=
  Emits.foldM (fun s i => item side (credits i.2) s i.1) s buffer.zipIdx

end JoinState

/-! ### Rounds -/

/-- The controls a port delivers. -/
inductive StreamControl where
  | processingTime (micros : ℤ)
  | graphProgress (watermarkMicros : ℤ) (flags : ℕ)
  | graphRoundEnd (sequence : ℕ)
  | checkpointBarrier (checkpoint : ℕ)
  | legacy

structure InputBatch where
  rows : List Row
  leased : ℕ

/-- What a port delivers at once. -/
structure Envelope where
  batch : Option InputBatch
  control : Option StreamControl

/-- The job a task belongs to. -/
structure JobCtx where
  operator : ℕ
  maxRows : ℕ
  reservationBytes : ℕ
  maxStateKeys : ℕ

/-- What the surroundings answer while one envelope is handled. -/
structure Surroundings where
  credits : Side → ℕ → ℕ → Credits
  workspace : Result Unit
  freeze : Result Unit
  active : Bool

structure JoinTask extends JoinState where
  sequence : ℕ
  previousTime : ℤ
  times : Side → Option ℤ
  done : Side → Bool
  barriers : Side → Option ℕ
  buffers : Side → List Item
  count : ℕ
  rows : ℕ
  bytes : ℕ

/-- `MAX_SNAPSHOT_BYTES`. -/
def maxSnapshotBytes : ℕ := 8 * 1024 * 1024

namespace JoinTask

def startOf (s : JoinState) (sequence : ℕ) (micros : ℤ) : JoinTask where
  toJoinState := s
  sequence := sequence + 1
  previousTime := micros
  times := fun _ => none
  done := fun _ => false
  barriers := fun _ => none
  buffers := fun _ => []
  count := 0
  rows := 0
  bytes := 0

/-- A task at the start, from the prepared state and the cut of the graph. -/
def start (s : JoinState) (sequence : ℕ) (micros : ℤ) : Result JoinTask := do
  refuseIf (usizeMax < sequence + 1) (invalidGraph "Join decision sequence exhausted")
  return startOf s sequence micros

variable (ctx : JobCtx) (around : Surroundings)

/-- `EncodedFreeze::from_analysis`. -/
def freeze (t : JoinTask) : Result Bytes := do
  let capacity := satAdd t.op.state.2 1024
  refuseIf (capacity > maxSnapshotBytes) (.new .boundExceeded "analysis freeze exceeds snapshot bound")
  around.freeze
  let bytes ← t.op.encodeState ctx.operator t.states t.emitted ctx.maxStateKeys
  refuseIf (bytes.length > capacity) (.new .internal "analysis freeze estimate underflow")
  return bytes

variable (t : JoinTask)

def barred : Bool := (t.barriers .left).isSome || (t.barriers .right).isSome

def begun : Bool := (t.times .left).isSome || (t.times .right).isSome

variable (side : Side)

def receiveBatch : Option InputBatch → Result (JoinTask × Option Item)
  | none => .ok (t, none)
  | some batch => do
    refuseIf ((t.times side).isNone || t.barred) (invalidGraph "Join data outside decision")
    let t := { t with rows := satAdd t.rows batch.rows.length, bytes := satAdd t.bytes batch.leased }
    refuseIf (t.rows > ctx.maxRows ∨ t.bytes > ctx.reservationBytes / 2)
      (.new .resourceExhausted "Join round buffer bound exceeded")
    return (t, some (.data batch.rows))

/-- A barrier; the second one of a checkpoint freezes the state. -/
def receiveBarrier (checkpoint : ℕ) : JoinTaskM JoinTask := do
  .lift (refuseIf (t.begun || decide (t.count ≠ 0) || (t.barriers .left).any (· ≠ checkpoint) ||
    (t.barriers .right).any (· ≠ checkpoint)) (invalidGraph "Join barrier crossed incomplete decision"))
  let t := { t with barriers := Function.update t.barriers side (some checkpoint) }
  if (t.barriers .left).isSome && (t.barriers .right).isSome then
    .emit (.frozen checkpoint (t.freeze ctx around))
    .emit (.barrier checkpoint)
    return { t with barriers := fun _ => none }
  else return t

/-- A control; the item is what of the envelope will be buffered. `none` ends the handling of the
envelope: the barrier of a checkpoint that is not wanted any more. -/
def receiveControl (item : Option Item) :
    Option StreamControl → JoinTaskM (JoinTask × Option (Option Item))
  | none => return (t, some item)
  | some (.processingTime micros) => do
    .lift (refuseIf ((t.times side).isSome || decide (micros < t.previousTime) ||
      (t.times .left).any (· ≠ micros) || (t.times .right).any (· ≠ micros) || t.barred)
        (invalidGraph "conflicting Join time decision"))
    return ({ t with times := Function.update t.times side (some micros) }, some item)
  | some (.graphProgress watermarkMicros flags) => do
    .lift (refuseIf (t.times side).isNone (invalidGraph "Join progress outside decision"))
    let p ← .lift (Progress.fromControl watermarkMicros flags)
    return (t, some (some (.progress p)))
  | some (.graphRoundEnd got) => do
    .lift (refuseIf (got ≠ t.sequence ∨ (t.times side).isNone) (invalidGraph "Join round boundary mismatch"))
    return ({ t with done := Function.update t.done side true }, some item)
  | some (.checkpointBarrier checkpoint) =>
    if around.active then do
      let t ← t.receiveBarrier ctx around side checkpoint
      return (t, some item)
    else return (t, none)
  | some .legacy => .lift (.error (invalidGraph "legacy controls cannot enter a durable Join"))

def buffer : Option Item → Result JoinTask
  | none => .ok t
  | some item => do
    refuseIf (t.count + 1 > satAdd ctx.maxRows 8) (invalidGraph "Join round control count bound")
    around.workspace
    return { t with count := t.count + 1, buffers := Function.update t.buffers side (t.buffers side ++ [item]) }

def round : JoinTaskM JoinTask := do
  let micros := (t.times .left).getD 0
  .emit (.processingTime micros)
  let s ← t.toJoinState.items .left (around.credits .left) (t.buffers .left)
  let s ← s.items .right (around.credits .right) (t.buffers .right)
  .emit (.roundEnd t.sequence)
  let next ← .lift (start s t.sequence micros)
  return { next with barriers := t.barriers }

def ready : Bool := !t.done side && (t.barriers side).isNone

/-- One envelope of one port; `none` is a port that has closed. -/
def receive : Option Envelope → JoinTaskM JoinTask
  | none => .lift (.error (invalidGraph "ordered Join input closed without cancellation"))
  | some env => do
    let (t, item) ← .lift (t.receiveBatch ctx side env.batch)
    let (t, item) ← t.receiveControl ctx around side item env.control
    match item with
    | none => return t
    | some item =>
      let t ← .lift (t.buffer ctx around side item)
      if t.done .left && t.done .right then t.round around else return t

end JoinTask

/-- One delivery: a port, what it delivers, and what the surroundings answer meanwhile. -/
structure Delivery where
  side : Side
  /-- What it delivers; `none` if it has closed. -/
  envelope : Option Envelope
  around : Surroundings

namespace JoinTask

variable (ctx : JobCtx)

/-- A delivery. A port that cannot be read keeps what it has. -/
def deliver (t : JoinTask) (d : Delivery) : JoinTaskM JoinTask :=
  if t.ready d.side then t.receive ctx d.around d.side d.envelope else return t

def run (t : JoinTask) (deliveries : List Delivery) : JoinTaskM JoinTask := Emits.foldM (deliver ctx) t deliveries

end JoinTask

/-! ### A sample join -/

/-- A left join on `k` of rows at most ten microseconds apart. -/
def sampleJoinSpec : StreamJoinSpec where
  leftInput := 1
  rightInput := 2
  leftKeys := ["k"]
  rightKeys := ["k"]
  leftTime := "ts"
  rightTime := "ts"
  mode := .left
  beforeMicros := some 10
  afterMicros := some 10
  windowSizeMicros := none
  leftPrefix := "l_"
  rightPrefix := "r_"
  maxRowsPerSide := 16
  maxMatchesPerRow := 16
  maxOutputBytesPerRow := 4096

def sampleJoinSchema : Schema where
  fields := [{ name := "k", dataType := .int64, nullable := true },
    { name := "ts", dataType := .int64, nullable := false }]

def sampleJoinRow (k : Scalar) (ts : Int64) : Row := { values := [k, .int64 ts] }

def sampleJoin : BoundedJoin :=
  Result.value (BoundedJoin.new sampleJoinSpec sampleJoinSchema sampleJoinSchema 64 64) (by decide)

def sampleJob : JobCtx := { operator := 7, maxRows := 64, reservationBytes := 65536, maxStateKeys := 64 }

/-- Room for everything, and a clock at zero. -/
def sampleAround : Surroundings where
  credits := fun _ _ _ => .all 0
  workspace := .ok ()
  freeze := .ok ()
  active := true

/-- The envelopes of one port in one round. -/
def samplePort (side : Side) (sequence : ℕ) (micros : ℤ) (rows : List Row) (watermark : ℤ)
    (flags : ℕ) : List Delivery :=
  [{ batch := none, control := some (.processingTime micros) },
    { batch := some { rows, leased := 64 }, control := none },
    { batch := none, control := some (.graphProgress watermark flags) },
    { batch := none, control := some (.graphRoundEnd sequence) }].map fun envelope =>
      { side, envelope := some envelope, around := sampleAround }

/-- Two rounds: a left row with a partner and one without, then the end of both inputs. -/
def sampleRounds : List Delivery :=
  samplePort .left 1 5 [sampleJoinRow (.int64 1) 10, sampleJoinRow (.int64 2) 30] 40 0 ++
    samplePort .right 1 5 [sampleJoinRow (.int64 1) 12] 20 0 ++
    samplePort .right 2 6 [] 50 3 ++ samplePort .left 2 6 [] 60 3

/-- What an event says about time: the watermark of a progress, `none` for a row. -/
def timeline (log : List JoinEvent) : List (Option (Option ℤ)) :=
  log.filterMap fun
    | .progress p => some (some (p.watermark.getD (-1)))
    | .row _ => some none
    | _ => none

end Sparrow.Runtime
