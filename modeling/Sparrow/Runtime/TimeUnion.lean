import Mathlib.Data.Fintype.Basic
import Sparrow.Runtime.JoinExecutor

/-!
# The union of a durable graph

`sparrow-runtime/src/kernel/graph/time_union.rs`: collect a round from every port, then
send it on, port by port in the order of the edges. Between two rounds the barriers of a
checkpoint meet, and the progress of the union is recorded with the graph.

## The model

As for the join, what the task sends and records is its log, and what was sent before
an error stays sent. The number of ports is that of the restored progress, which the
task checks once when it starts. Of the graph's registry of recorded progress the
entry of this operator is kept (`recorded`): nobody else writes it. The work budget,
cancellation and a receiver that has gone away are left out, as for the join.
-/

namespace Sparrow.Runtime

open Library Model

/-- How far a union has come. -/
structure UnionProgress (n : ℕ) where
  inputs : Fin n → Progress
  emitted : Progress
  deriving DecidableEq

/-- What the task sends downstream or records. -/
inductive UnionEvent (n : ℕ) where
  | processingTime (micros : ℤ)
  | rows (rows : List Row)
  | progress (p : Progress)
  | roundEnd (sequence : ℕ)
  | recorded (checkpoint : ℕ) (state : UnionProgress n)
  | barrier (checkpoint : ℕ)

abbrev UnionTaskM (n : ℕ) := Emits (UnionEvent n) SparrowError

/-- The graph a task belongs to. -/
structure GraphCtx where
  maxRows : ℕ
  reservationBytes : ℕ
  eventTime : Bool

variable {n : ℕ}

/-- The progress of the output: the least watermark of the inputs that are not idle, if they all have one. -/
def merged (state : UnionProgress n) (eventTime : Bool) : Progress :=
  let inputs := List.ofFn state.inputs
  let eof := inputs.all (·.eof)
  let idle := inputs.all (·.idle)
  let watermark :=
    if eventTime && eof then some i64Max
    else if eventTime && !idle && !inputs.any (fun p => !p.idle && p.watermark.isNone) then
      match ((inputs.filter fun p => !p.idle).filterMap (·.watermark)).min? with
      | some next => some (state.emitted.watermark.elim next (max · next))
      | none => state.emitted.watermark
    else state.emitted.watermark
  { watermark, idle, eof }

/-- What the surroundings answer while one envelope is handled. -/
structure UnionAround where
  workspace : Result Unit
  active : Bool

structure UnionTask (n : ℕ) where
  state : UnionProgress n
  recorded : Option (ℕ × UnionProgress n)
  sequence : ℕ
  previousTime : ℤ
  time : Fin n → Option ℤ
  done : Fin n → Bool
  barriers : Fin n → Option ℕ
  buffers : Fin n → List Item
  items : ℕ
  rows : ℕ
  bytes : ℕ

namespace UnionTask

/-- The task at the start, from the progress of the graph's cut. -/
def start (n : ℕ) (inputs : List Progress) (emitted : Progress) (sequence : ℕ) (micros : ℤ) : Result (UnionTask n) := do
  if h : inputs.length = n then
    refuseIf (usizeMax < sequence + 1) (invalidGraph "decision sequence exhausted")
    return {
      state := { inputs := fun i => inputs.get (i.cast h.symm), emitted }
      recorded := none
      sequence := sequence + 1
      previousTime := micros
      time := fun _ => none
      done := fun _ => false
      barriers := fun _ => none
      buffers := fun _ => []
      items := 0
      rows := 0
      bytes := 0 }
  else .error (invalidGraph "Union port count changed")

variable (ctx : GraphCtx) (around : UnionAround) (t : UnionTask n)

def barred : Bool := decide (∃ i, (t.barriers i).isSome)

variable (port : Fin n)

def receiveBatch : Option InputBatch → Result (UnionTask n × Option Item)
  | none => .ok (t, none)
  | some batch => do
    refuseIf ((t.time port).isNone || t.barred) (invalidGraph "Union data outside a decision")
    refuseIf (usizeMax < t.rows + batch.rows.length) (invalidGraph "round row overflow")
    refuseIf (usizeMax < t.bytes + batch.leased) (invalidGraph "round byte overflow")
    let t := { t with rows := t.rows + batch.rows.length, bytes := t.bytes + batch.leased }
    refuseIf (t.rows > ctx.maxRows ∨ t.bytes > ctx.reservationBytes / 2)
      (.new .resourceExhausted "durable Union decision buffer bound exceeded")
    return (t, some (.data batch.rows))

/-- `GraphRuntime::record_union`: a later checkpoint replaces an earlier one. -/
def recordUnion (checkpoint : ℕ) : Result (UnionTask n) := do
  refuseIf (t.recorded.any fun (old, value) =>
    decide (old > checkpoint) || (old == checkpoint && decide (value ≠ t.state)))
    (invalidGraph "conflicting Union ACK")
  return { t with recorded := some (checkpoint, t.state) }

/-- A barrier; the last one of a checkpoint records the progress. -/
def receiveBarrier (checkpoint : ℕ) : UnionTaskM n (UnionTask n) := do
  .lift (refuseIf ((∃ i, (t.time i).isSome) ∨ t.items ≠ 0 ∨ ∃ i, (t.barriers i).any (· ≠ checkpoint))
    (invalidGraph "barrier crossed an incomplete graph decision"))
  let t := { t with barriers := Function.update t.barriers port (some checkpoint) }
  if ∀ i, (t.barriers i).isSome then
    let t ← .lift (t.recordUnion checkpoint)
    .emit (.recorded checkpoint t.state)
    .emit (.barrier checkpoint)
    return { t with barriers := fun _ => none }
  else return t

/-- A control; the item is what of the envelope will be buffered. `none` ends the handling of the
envelope: the barrier of a checkpoint that is not wanted any more. -/
def receiveControl (item : Option Item) :
    Option StreamControl → UnionTaskM n (UnionTask n × Option (Option Item))
  | none => return (t, some item)
  | some (.processingTime micros) => do
    .lift (refuseIf ((t.time port).isSome || decide (micros < t.previousTime) || t.barred ||
      decide (∃ i, (t.time i).any (· ≠ micros))) (invalidGraph "conflicting Union time decision"))
    return ({ t with time := Function.update t.time port (some micros) }, some item)
  | some (.graphProgress watermarkMicros flags) => do
    .lift (refuseIf (t.time port).isNone (invalidGraph "Union progress outside a decision"))
    let p ← .lift (Progress.fromControl watermarkMicros flags)
    return (t, some (some (.progress p)))
  | some (.graphRoundEnd got) => do
    .lift (refuseIf (got ≠ t.sequence ∨ (t.time port).isNone) (invalidGraph "Union round boundary mismatch"))
    return ({ t with done := Function.update t.done port true }, some item)
  | some (.checkpointBarrier checkpoint) =>
    if around.active then do
      let t ← t.receiveBarrier port checkpoint
      return (t, some item)
    else return (t, none)
  | some .legacy => .lift (.error (invalidGraph "legacy time controls cannot enter a durable graph decision"))

def buffer : Option Item → Result (UnionTask n)
  | none => .ok t
  | some item => do
    refuseIf (usizeMax < t.items + 1) (invalidGraph "round item overflow")
    refuseIf (t.items + 1 > satAdd ctx.maxRows (n * 4)) (invalidGraph "round control count bound")
    around.workspace
    return { t with items := t.items + 1, buffers := Function.update t.buffers port (t.buffers port ++ [item]) }

end UnionTask

namespace UnionProgress

def item (ctx : GraphCtx) (port : Fin n) (state : UnionProgress n) : Item → UnionTaskM n (UnionProgress n)
  | .data rows => do
    .lift (refuseIf (ctx.eventTime && (state.inputs port).eof) (invalidGraph "ET row after permanent EOF"))
    .emit (.rows rows)
    return state
  | .progress next => do
    .lift (refuseIf (((state.inputs port).eof && !next.eof) || movesBack (state.inputs port) next)
      (invalidGraph "graph input progress moved backwards"))
    let state := { state with inputs := Function.update state.inputs port next }
    let next := merged state ctx.eventTime
    if next ≠ state.emitted then
      .emit (.progress next)
      return { state with emitted := next }
    else return state

end UnionProgress

namespace UnionTask

variable (ctx : GraphCtx) (around : UnionAround)

def round (t : UnionTask n) : UnionTaskM n (UnionTask n) := do
  let micros := (List.ofFn t.time).head?.join.getD 0
  .emit (.processingTime micros)
  let state ← Emits.foldM (fun state i => Emits.foldM (UnionProgress.item ctx i) state
    (t.buffers i)) t.state (List.finRange n)
  .emit (.roundEnd t.sequence)
  .lift (refuseIf (usizeMax < t.sequence + 1) (invalidGraph "decision sequence exhausted"))
  return { t with
    state, sequence := t.sequence + 1, previousTime := micros, time := fun _ => none, done := fun _ => false
    buffers := fun _ => [], items := 0, rows := 0, bytes := 0 }

def ready (t : UnionTask n) (port : Fin n) : Bool := !t.done port && (t.barriers port).isNone

/-- One envelope of one port; `none` is a port that has closed. -/
def receive (t : UnionTask n) (port : Fin n) : Option Envelope → UnionTaskM n (UnionTask n)
  | none => .lift (.error (invalidGraph "ordered Union input closed without cancellation"))
  | some env => do
    let (t, item) ← .lift (t.receiveBatch ctx port env.batch)
    let (t, item) ← t.receiveControl around port item env.control
    match item with
    | none => return t
    | some item =>
      let t ← .lift (t.buffer ctx around port item)
      if ∀ i, t.done i then t.round ctx else return t

end UnionTask

end Sparrow.Runtime
