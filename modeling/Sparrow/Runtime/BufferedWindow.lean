import Sparrow.Plan.WindowSpec
import Sparrow.Runtime.Aggregate
import Sparrow.Runtime.Watermark

/-!
# Buffered windows

`sparrow-runtime/src/buffered_window.rs`, the live operator: sliding and session
windows that keep, per key, the aggregate inputs of the events a later result may
still need, and emit final rows only.

## The model

`Group.events` is the tree map from `(time, sequence)` to the retained inputs, and
`schedule` the tree set of `(deadline, key)`. A key is its encoded bytes; the key
object a group was created with (its values and its credit) sits in the group.
Operations that mutate return their result with the operator they leave, an error
keeping what was changed before it. Times are integers; `push` refuses every
timestamp whose window end would not fit in `i64`, so the additions that follow do
not wrap.

`push` is cut at the places where it changes the operator: `admission` is everything
it computes before touching the groups, `retain` what it does with an admitted
event.
-/

namespace Sparrow.Runtime

open Library Model Plan

/-- The key object of a group. -/
structure Key where
  encoded : Bytes
  values : List Scalar
  credit : ℕ

structure Event where
  values : List Scalar
  pending : Bool
  credit : ℕ

/-- The retained events of a key, by time, then by arrival. -/
abbrev Events := SortedMap (ℤ ×ₗ ℕ) Event

/-- An entry of `Events`. -/
abbrev EventEntry := (ℤ ×ₗ ℕ) × Event

def timeOf (e : EventEntry) : ℤ := (ofLex e.1).1

def seqOf (e : EventEntry) : ℕ := (ofLex e.1).2

structure Group where
  key : Key
  events : Events
  sequence : ℕ
  deadline : Option ℤ

inductive Ingest where
  | accepted (out : Option RowBatch)
  | late
  | future

structure BufferedConfig where
  spec : WindowSpec
  input : Schema
  output : Schema
  keys : List ℕ
  eventTime : Option ℕ
  expressions : List (Option BoundExpr)
  external : Bool
  maxKeys : ℕ
  maxTimers : ℕ
  durable : Bool

/-- The operator. -/
structure BufferedWindow extends BufferedConfig where
  schedule : SortedMap (ℤ ×ₗ Bytes) Unit
  groups : SortedMap Bytes Group
  hub : WatermarkHub
  bytes : ℕ
  lastNow : ℤ
  maxGroupRowsSeen : ℕ

/-! ### Credits -/

/-- Fixed node and container slack of a key. -/
def keyFixed : ℕ := 4096

def eventFixed : ℕ := 1024

def keyCredit (values : List Scalar) : ℕ := values.foldl (fun n v => satAdd n (satMul v.residentBytes 4)) keyFixed

/-- Retention credit of one retained input of a checkpointed job. -/
def eventCredit (values : List Scalar) : ℕ :=
  values.foldl (fun n v => satAdd n v.residentBytes)
    (satAdd eventFixed (satMul values.length scalarSize))

def invalid (message : String) : SparrowError := .new .invalidArgument message

def windowOverflow : SparrowError := .new .integerOverflow "window timestamp/sequence overflow"

/-! ### Groups -/

namespace Group

variable (g : Group)

/-- The time of the first event whose window is still to be emitted, with its entry. -/
def firstPending : Option EventEntry := g.events.entries.find? fun e => e.2.pending

/-- The end of the session that has reached `stop`, over the entries that follow. -/
def sessionEnd (gap cap : ℤ) (stop : ℤ) : List EventEntry → ℤ
  | [] => stop
  | e :: rest => if timeOf e ≥ stop then stop else sessionEnd gap cap (min (timeOf e + gap) cap) rest

/-- The first session of a group: from the first event, extended by each next one that
comes before its end, up to the maximum duration. -/
def session (gap maxDuration : ℤ) : Option (ℤ × ℤ) :=
  g.events.first?.map fun f =>
    (timeOf f, sessionEnd gap (timeOf f + maxDuration) (min (timeOf f + gap) (timeOf f + maxDuration))
      g.events.entries)

/-- The deadline of a group: the first pending trigger, else the expiration of the
oldest event; for sessions, the end of the first one. -/
def nextDeadline : WindowKind → Option ℤ
  | .slidingProcessingTime size delay | .slidingEventTime size delay =>
    match g.firstPending with
    | some e => some (timeOf e + delay + 1)
    | none => g.events.first?.map fun e => timeOf e + size
  | .sessionProcessingTime gap maxDuration | .sessionEventTime gap maxDuration =>
    (g.session gap maxDuration).map (·.2)
  | _ => none

/-- What is due in a group at `time`: the bounds of the result, and the trigger it
consumes (for a session, its end). -/
def dueAt (time : ℤ) : WindowKind → Option (ℤ × ℤ × (ℤ ×ₗ ℕ))
  | .slidingProcessingTime size delay | .slidingEventTime size delay =>
    match g.firstPending with
    | some e =>
      if timeOf e + delay + 1 ≤ time then
        some (timeOf e - size + 1, timeOf e + delay + 1, e.1)
      else none
    | none => none
  | .sessionProcessingTime gap maxDuration | .sessionEventTime gap maxDuration =>
    (g.session gap maxDuration).map fun (start, stop) => (start, stop, toLex (stop, 0))
  | _ => none

theorem nextDeadline_slides {kind : WindowKind} {size delay : Int64} (hk : kind.Slides size delay) :
    g.nextDeadline kind = match g.firstPending with
      | some e => some (timeOf e + delay + 1)
      | none => g.events.first?.map fun e => timeOf e + size := by
  rcases hk with rfl | rfl <;> rfl

theorem dueAt_slides (time : ℤ) {kind : WindowKind} {size delay : Int64} (hk : kind.Slides size delay) :
    g.dueAt time kind = match g.firstPending with
      | some e => if timeOf e + delay + 1 ≤ time then
          some (timeOf e - size + 1, timeOf e + delay + 1, e.1) else none
      | none => none := by
  rcases hk with rfl | rfl <;> rfl

/-- The events up to which nothing is needed any more: all below the first pending
trigger by more than the size, or, with none pending, below the time. -/
def cutoff (time size : ℤ) : ℤ := satSubI ((g.firstPending.map fun e => min (timeOf e) time).getD time) size

/-- Which events `take_due` pops from the front of a group. -/
def spent (time : ℤ) (consumed : Option (ℤ ×ₗ ℕ)) : WindowKind → EventEntry → Bool
  | .slidingProcessingTime size _, e | .slidingEventTime size _, e =>
    timeOf e ≤ g.cutoff time size ∧ ¬ e.2.pending
  | _, e => consumed.any fun k => timeOf e < (ofLex k).1

/-- Mark the consumed trigger of a sliding window as emitted. -/
def fired (consumed : Option (ℤ ×ₗ ℕ)) : WindowKind → Group
  | .slidingProcessingTime .. | .slidingEventTime .. =>
    match consumed with
    | some k => { g with events := g.events.modify k fun e => { e with pending := false } }
    | none => g
  | _ => g

def added (time : ℤ) (sequence : ℕ) (event : Event) : Group :=
  { g with events := g.events.insert (toLex (time, sequence)) event, sequence, deadline := none }

/-- A count window keeps the last `size` events. -/
def excess : WindowKind → ℕ
  | .slidingCount size _ => g.events.size - size
  | _ => 0

def trimmed (kind : WindowKind) : Group :=
  { g with events := g.events.popN (g.excess kind) }

/-- The trigger that a push emits at once is not pending afterwards. -/
def emittedNow (time : ℤ) (sequence : ℕ) : WindowKind → Group
  | .slidingProcessingTime _ delay =>
    if delay = 0 then
      { g with events := g.events.modify (toLex (time, sequence)) fun e => { e with pending := false } }
    else g
  | _ => g

/-- The group after `take_due` consumed a trigger: fired, its spent events popped, not
scheduled. -/
def settled (time : ℤ) (consumed : Option (ℤ ×ₗ ℕ)) (kind : WindowKind) : Group :=
  let g : Group := { g.fired consumed kind with deadline := none }
  { g with events := g.events.popWhile (g.spent time consumed kind) }

/-- The events `take_due` pops. -/
def popped (time : ℤ) (consumed : Option (ℤ ×ₗ ℕ)) (kind : WindowKind) : List EventEntry :=
  let g := g.fired consumed kind
  g.events.entries.takeWhile (g.spent time consumed kind)

end Group

namespace BufferedWindow

/-! ### Reading the operator -/

variable (w : BufferedWindow)

def isEt : Bool := w.spec.kind.usesEventTime

def isPt : Bool := w.spec.kind.usesProcessingTimeTimer

def progress (w : BufferedWindow) : Option ℤ := if w.isEt then w.hub.progress else none

/-- The next deadline of a processing-time window. -/
def deadline : Option ℤ :=
  if w.isPt then w.schedule.first?.map fun e => (ofLex e.1).1 else none

/-- Something is scheduled at or before `time`. -/
def due (time : ℤ) : Bool := w.schedule.first?.any fun e => (ofLex e.1).1 ≤ time

/-- Read the clock: readings below an earlier one count as that one. -/
def now (w : BufferedWindow) (now : ℤ) : Result ℤ × BufferedWindow :=
  if w.spec.kind.isCount then (.ok now, w)
  else if now < 0 then (.error (invalid "processing time must be nonnegative"), w)
  else
    let last := max w.lastNow now
    (.ok last, { w with lastNow := last })

def column (row : Row) (i : ℕ) : Scalar := row.values.getD i .null

/-! ### Creation and control -/

def keyIndices (input : Schema) (names : List String) : Result (List ℕ) :=
  names.mapM fun k => match input.indexOfName k with
    | some i => .ok i
    | none => .error (invalid "unknown window key")

def eventTimeIndex (input : Schema) : Option String → Result (Option ℕ)
  | none => .ok none
  | some k => match input.indexOfName k with
    | some i => .ok (some i)
    | none => .error (invalid "unknown event-time field")

/-- `BufferedWindow::new`; the budget's own bounds on keys and timers are arguments. -/
def new (spec : WindowSpec) (input : Schema) (budgetKeys budgetTimers maxKeys maxTimers : ℕ)
    (external : Bool) : Result BufferedWindow := do
  spec.validate
  refuseIf (¬ spec.kind.isBuffered) (invalid "expected a buffered window")
  let keys ← keyIndices input spec.keys
  let eventTime ← eventTimeIndex input spec.eventTimeField
  let output ← windowOutputSchema input spec
  let expressions ← spec.aggs.mapM (·.bindInput input)
  let hub ← WatermarkHub.ofBinding spec.binding
  let (registered, hub) := hub.register .single
  registered
  refuseIf (maxKeys = 0) (invalid "window requires a nonzero key limit")
  return { schedule := .empty, groups := .empty, spec, input, output, keys, eventTime, expressions
           maxKeys := min maxKeys budgetKeys, maxTimers := min maxTimers budgetTimers
           hub, external, bytes := 0, lastNow := 0, maxGroupRowsSeen := 0, durable := false }

def watermark (input : InputId) (time : ℤ) : Result Unit × BufferedWindow :=
  let (r, hub) := w.hub.setWatermark input time
  (r.map fun _ => (), { w with hub })

def activity (input : InputId) (active : Bool) : Result Unit × BufferedWindow :=
  let (r, hub) := if active then w.hub.markActive input else w.hub.markIdle input
  (r.map fun _ => (), { w with hub })

/-! ### Admission -/

/-- The event time of a row, or the clock for windows without one. -/
def timestamp (w : BufferedWindow) (row : Row) (now : ℤ) : Result ℤ :=
  let refused : Result ℤ := .error (invalid "event time must be a nonnegative timestamp/int64")
  match w.eventTime with
  | none => .ok now
  | some index =>
    match column row index with
    | .int64 v => if 0 ≤ (v : ℤ) then .ok v else refused
    | .timestampMicrosUTC v => if 0 ≤ (v : ℤ) then .ok v else refused
    | _ => refused

def isFuture (timestamp now : ℤ) : Bool :=
  w.isEt && (w.spec.binding.bind (·.maxFutureSkewMicros)).any fun s => timestamp > satAddI now s

def isLate (timestamp : ℤ) : Bool := w.isEt && w.progress.any fun wm => timestamp < wm

def endpointsFit (timestamp : ℤ) : Bool :=
  match w.spec.kind with
  | .slidingProcessingTime size delay | .slidingEventTime size delay =>
    fitsI64 (timestamp + delay) && fitsI64 (timestamp + delay + 1) && fitsI64 (timestamp + size)
  | .sessionProcessingTime gap maxDuration | .sessionEventTime gap maxDuration =>
    fitsI64 (timestamp + max (gap : ℤ) maxDuration)
  | _ => true

def keyValues (row : Row) : List Scalar := w.keys.map (column row)

/-- The key object of a row, its credit acquired first. -/
def key (w : BufferedWindow) (grants : Grants) (row : Row) : Result Key := do
  let values := w.keyValues row
  let credit := keyCredit values
  grants .key .retention credit
  return { encoded := encodeKeyValues values, values, credit }

/-- Resident and transient bytes of evaluating the aggregate arguments. -/
def eventBytes (row : Row) : ℕ × ℕ :=
  let columns := row.values.map Scalar.residentBytes
  let (resident, transient) := w.expressions.foldl (fun (r, t) expr =>
    let e := match expr with
      | some expr => expr.estimate columns
      | none => { value := 0, allocated := 0 }
    (satAdd r (max e.value scalarSize), satAdd (satAdd t e.allocated) (satMul e.value 2))) (1024, 256)
  (satAdd resident (satMul w.expressions.length scalarSize), transient)

/-- Evaluate the aggregate arguments on a row. -/
def evalInputs (row : Row) : Result (List Scalar) :=
  w.expressions.mapM fun expr => match expr with
    | some expr => expr.eval row.values
    | none => .ok .null

variable (grants : Grants)

/-- The credit an event keeps: what was acquired before evaluation, or, in a checkpointed
job, the exact size of what is stored. -/
def keptCredit (resident : ℕ) (values : List Scalar) : Result ℕ :=
  if w.durable then
    let exact := eventCredit values
    if exact > resident then (grants .grow .retention exact).map fun _ => exact
    else .ok exact
  else .ok resident

/-- The event of a row: credits, evaluation, and the credit it keeps. -/
def event (w : BufferedWindow) (grants : Grants) (row : Row) : Result Event := do
  grants .columns .reservation (satAdd (satMul row.values.length 8) 64)
  let bytes := w.eventBytes row
  grants .event .retention bytes.1
  grants .scratch .reservation bytes.2
  let values ← w.evalInputs row
  let credit ← w.keptCredit grants bytes.1 values
  return { values, pending := true, credit }

/-- An event that passed every check, with the group it goes to. -/
structure Admission where
  group : Group
  fresh : Bool
  sequence : ℕ
  event : Event

/-- Everything `push` checks and acquires before it changes a group. -/
def admission (row : Row) (timestamp : ℤ) : Result Admission := do
  refuseIf (¬ w.endpointsFit timestamp) windowOverflow
  let candidate ← w.key grants row
  let existing := w.groups.get? candidate.encoded
  refuseIf (existing.isNone ∧ (w.groups.size ≥ w.maxKeys ∨ (w.isPt ∧ w.schedule.size ≥ w.maxTimers)))
    (.new .boundExceeded "buffered window key/timer limit exceeded")
  let group := existing.getD { key := candidate, events := .empty, sequence := 0, deadline := none }
  refuseIf (((group.sequence + 1 : ℕ) : ℤ) > i64Max) windowOverflow
  refuseIf (¬ w.spec.kind.isCount ∧ existing.isSome ∧ group.events.size ≥ w.spec.maxBufferedRows)
    (.new .boundExceeded "window max_buffered_rows exceeded; input is not silently dropped")
  let event ← w.event grants row
  return { group, fresh := existing.isNone, sequence := group.sequence + 1, event }

/-! ### Results -/

def newAccumulators : Result (List Accumulator) :=
  w.spec.aggs.mapM fun a => do Accumulator.new a.func (← a.inputType w.input) a.countStar

/-- The retained inputs of a group between `low` and `high`, in order. Count windows
have no upper end. -/
def inputsBetween (g : Group) (low high : ℤ) : List (List Scalar) :=
  (g.events.entries.filter fun e => timeOf e ≥ low ∧ (w.spec.kind.isCount ∨ timeOf e < high)).map
    (·.2.values)

def aggregateBytes (g : Group) : ℕ :=
  g.events.entries.foldl (fun n e => e.2.values.foldl (fun n v => satAdd n (satMul v.residentBytes 3)) n)
    (satAdd (satAdd g.key.credit (satMul w.spec.aggs.length 256)) 512)

/-- Aggregate a group between `low` and `high` into one row bounded by `start` and `stop`. -/
def aggregate (w : BufferedWindow) (grants : Grants) (g : Group) (start stop low high : ℤ) : Result RowBatch := do
  grants .aggregate .reservation (w.aggregateBytes g)
  let accs ← w.newAccumulators
  let accs ← foldInputs accs (w.inputsBetween g low high)
  finishRowMetered w.output (resultRow g.key.values start stop accs) grants

/-! ### Scheduling -/

/-- Take a group's deadline out of the schedule. -/
def unschedule (key : Bytes) (deadline : Option ℤ) : BufferedWindow :=
  match deadline with
  | some t => { w with schedule := w.schedule.erase (toLex (t, key)) }
  | none => w

/-- Recompute the deadline of a group and schedule it. -/
def reschedule (key : Bytes) : BufferedWindow :=
  match w.groups.get? key with
  | none => w
  | some g =>
    let w := w.unschedule key g.deadline
    let deadline := g.nextDeadline w.spec.kind
    let w := { w with groups := w.groups.insert key { g with deadline } }
    match deadline with
    | some t => { w with schedule := w.schedule.insert (toLex (t, key)) () }
    | none => w

/-! ### Push -/

/-- The row a push emits at once: bounds, and the range aggregated. -/
def immediate (timestamp : ℤ) (sequence : ℕ) : Option (ℤ × ℤ × ℤ × ℤ) :=
  match w.spec.kind with
  | .slidingCount size step =>
    if sequence ≥ size ∧ sequence % step = 0 then
      some ((sequence : ℤ) - size, sequence, i64Min, i64Max)
    else none
  | .slidingProcessingTime size delay =>
    if delay = 0 then
      some (timestamp - size + 1, timestamp + 1, timestamp - size + 1, timestamp + 1)
    else none
  | _ => none

/-- Mark the trigger a push emitted at once. -/
def settleImmediate (key : Bytes) (timestamp : ℤ) (sequence : ℕ) : BufferedWindow :=
  { w with groups := w.groups.modify key fun g => g.emittedNow timestamp sequence w.spec.kind }

def release (bytes : ℕ) (popped : List EventEntry) : ℕ := popped.foldl (fun n e => n - e.2.credit) bytes

/-- Put an admitted event into its group: credit, old deadline, event, count bound. -/
def insertEvent (adm : Admission) (timestamp : ℤ) : BufferedWindow :=
  let key := adm.group.key.encoded
  let bytes := satAdd w.bytes adm.event.credit
  let bytes := if adm.fresh then satAdd bytes adm.group.key.credit else bytes
  let w := w.unschedule key adm.group.deadline
  let time := if w.spec.kind.isCount then (adm.sequence : ℤ) else timestamp
  let g := adm.group.added time adm.sequence adm.event
  { w with
    groups := w.groups.insert key (g.trimmed w.spec.kind)
    maxGroupRowsSeen := max w.maxGroupRowsSeen g.events.size
    bytes := release bytes (g.events.entries.take (g.excess w.spec.kind)) }

/-- The row emitted at once for the event just put into the group of `key`. -/
def immediateRow (key : Bytes) (timestamp : ℤ) (sequence : ℕ) : Result (Option RowBatch) :=
  match w.immediate timestamp sequence, w.groups.get? key with
  | some (start, stop, low, high), some g => (w.aggregate grants g start stop low high).map some
  | _, _ => .ok none

/-- Without external watermarks, an event-time window observes each accepted timestamp. -/
def observe (timestamp now : ℤ) (out : Option RowBatch) : Result Ingest × BufferedWindow :=
  if w.isEt ∧ ¬ w.external then
    let (r, hub) := w.hub.observeEvent .single timestamp now
    (r.map fun _ => .accepted out, { w with hub })
  else (.ok (.accepted out), w)

/-- The operator with the event in its group, its trigger settled, and the group
rescheduled. -/
def retained (adm : Admission) (timestamp : ℤ) : BufferedWindow :=
  let key := adm.group.key.encoded
  ((w.insertEvent adm timestamp).settleImmediate key timestamp adm.sequence).reschedule key

/-- What `push` does with an admitted event. -/
def retain (adm : Admission) (timestamp now : ℤ) : Result Ingest × BufferedWindow :=
  match (w.insertEvent adm timestamp).immediateRow grants adm.group.key.encoded timestamp
      adm.sequence with
  | .error e => (.error e, w.insertEvent adm timestamp)
  | .ok out => (w.retained adm timestamp).observe timestamp now out

/-- `BufferedWindow::push`. -/
def push (row : Row) (now : ℤ) : Result Ingest × BufferedWindow :=
  if row.values.length ≠ w.input.fields.length then
    (.error (invalid "window row/schema width mismatch"), w)
  else match w.now now with
    | (.error e, w) => (.error e, w)
    | (.ok now, w) =>
      match w.timestamp row now with
      | .error e => (.error e, w)
      | .ok timestamp =>
        if w.isFuture timestamp now then (.ok .future, w)
        else if w.isLate timestamp then (.ok .late, w)
        else match w.admission grants row timestamp with
          | .error e => (.error e, w)
          | .ok adm => w.retain grants adm timestamp now

/-! ### Draining -/

/-- What `take_due` does to the group it found due, its output (if any) already made. -/
def settle (key : Bytes) (g : Group) (deadline time : ℤ)
    (consumed : Option (ℤ ×ₗ ℕ)) : BufferedWindow :=
  let w := { w with schedule := w.schedule.erase (toLex (deadline, key)) }
  let bytes := release w.bytes (g.popped time consumed w.spec.kind)
  let g := g.settled time consumed w.spec.kind
  if g.events.size = 0 then
    { w with groups := w.groups.erase key, bytes := bytes - g.key.credit }
  else
    let w := { w with groups := w.groups.insert key g, bytes }
    w.reschedule key

/-- One bounded step: either one final output or history eviction. -/
def takeDue (time : ℤ) : Result (Option RowBatch) × BufferedWindow :=
  match if w.isPt then w.now time else (.ok time, w) with
  | (.error e, w) => (.error e, w)
  | (.ok time, w) =>
    match w.schedule.first? with
    | none => (.ok none, w)
    | some (entry, ()) =>
      let (deadline, key) := ofLex entry
      if deadline > time then (.ok none, w)
      else match w.groups.get? key with
        -- every scheduled key has a group, so the source indexes the map here
        | none => (.error (.new .internal "existing group"), w)
        | some g =>
          match g.dueAt time w.spec.kind with
          | none => (.ok none, w.settle key g deadline time none)
          | some (start, stop, consumed) =>
            match w.aggregate grants g start stop start stop with
            | .error e => (.error e, w)
            | .ok out => (.ok (some out), w.settle key g deadline time (some consumed))

end BufferedWindow

end Sparrow.Runtime
