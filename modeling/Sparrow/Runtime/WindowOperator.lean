import Sparrow.Plan.WindowSpec
import Sparrow.Runtime.Aggregate
import Sparrow.Runtime.Watermark

/-!
# Tumbling, hopping and count windows

`sparrow-runtime/src/window.rs`, the live operator, with the parts of `state.rs` and
`timer.rs` it uses: windows that keep accumulators per key, not events.

## The model

`MemoryState` is the keyed store. The source's hash map is only iterated to sort it, so it
is a map in the order of the encoded keys. `closedIndex` is the tree map from the end of a
window and its key to the key. A timer of the source is named after the window end it
fires at, so that its generations never matter and the live timers are a set of ends.

Each place at which a call asks the memory owner for credit is a `LeaseSite`, and the
answers there are an argument of the call. The amounts, which depend on the capacities of
allocated vectors, are left out; where they decide how many windows go into one chunk,
they are the argument `Sizes`.

Operations that mutate return their result with the operator they leave. An accumulator
whose update fails is left as it was.
-/

namespace Sparrow.Runtime

open Library Model Plan

/-- The places at which an operator asks for credit; `i` numbers the windows of a row. -/
inductive LeaseSite where
  | scratch
  | entry (i : ℕ)
  | index (i : ℕ)
  | update (i : ℕ)
  | chunk
  | rows
  | restore
  deriving DecidableEq, Repr

/-- What the memory owner answers within one call. -/
abbrev Leases := LeaseSite → Result Unit

def Leases.all : Leases := fun _ => .ok ()

/-! ### Keyed state -/

def atOperator (operator : ℕ) (e : SparrowError) : SparrowError := e.withContext "operator" s!"OperatorId({operator})"

/-- A state entry with the key it was put under. -/
structure Stored (V : Type) where
  key : List Scalar
  value : V

/-- The keyed store of one operator; a key is its encoded bytes. -/
structure MemoryState (V : Type) where
  operator : ℕ
  maxKeys : ℕ
  entries : SortedMap Bytes (Stored V)

namespace MemoryState

variable {V : Type}

/-- `MemoryState::new`; the budget's own bound on keys is an argument. -/
def new (operator maxKeys budgetKeys : ℕ) : Result (MemoryState V) :=
  if maxKeys = 0 then
    .error (.new .invalidArgument "state max_keys must be > 0 (unbounded state is rejected)")
  else .ok { operator, maxKeys := min maxKeys budgetKeys, entries := .empty }

def get? (s : MemoryState V) (key : List Scalar) : Option V := (s.entries.get? (encodeKeyValues key)).map (·.value)

def quota (s : MemoryState V) : SparrowError :=
  let size := s.entries.size
  let bound := s.maxKeys
  let e := SparrowError.new .resourceExhausted s!"state key quota exceeded: {size} keys (max {bound})"
  (atOperator s.operator { e with retryable := false }).withContext "max_keys" s!"{bound}"

/-- Insert or replace; the key object of an entry stays. -/
def put (s : MemoryState V) (lease : Result Unit) (key : List Scalar) (value : V) : Result (MemoryState V) := do
  let k := encodeKeyValues key
  let old := s.entries.get? k
  refuseIf (old.isNone ∧ s.entries.size ≥ s.maxKeys) s.quota
  lease
  return { s with entries := s.entries.insert k { key := (old.map (·.key)).getD key, value } }

def set (s : MemoryState V) (key : List Scalar) (value : V) : MemoryState V :=
  { s with entries := s.entries.modify (encodeKeyValues key) fun e => { e with value } }

def remove (s : MemoryState V) (key : List Scalar) : MemoryState V :=
  { s with entries := s.entries.erase (encodeKeyValues key) }

end MemoryState

/-! ### Timers -/

/-- The live timers of an operator, by the window end they fire at. -/
structure BoundedTimers where
  operator : ℕ
  max : ℕ
  live : SortedMap ℤ Unit

namespace BoundedTimers

/-- `BoundedTimers::new`. -/
def new (operator max : ℕ) : Result BoundedTimers :=
  if max = 0 then
    .error (.new .invalidArgument "max_timers must be > 0 (unbounded timer heaps are rejected)")
  else .ok { operator, max, live := .empty }

/-- Schedule the timer of a window end, or replace it. -/
def schedule (t : BoundedTimers) (stop : ℤ) : Result BoundedTimers := do
  let size := t.live.size
  let bound := t.max
  let e := SparrowError.new .resourceExhausted s!"timer quota exceeded: {size} live timers (max {bound})"
  refuseIf ((t.live.get? stop).isNone ∧ size ≥ bound)
    ((atOperator t.operator { e with retryable := false }).withContext "max_timers" s!"{bound}")
  return { t with live := t.live.insert stop () }

/-- Pop the timers due at `now`, earliest first. -/
def fireDue (t : BoundedTimers) (now : ℤ) : List ℤ × BoundedTimers :=
  ((t.live.entries.takeWhile fun e => e.1 ≤ now).map (·.1),
    { t with live := t.live.popWhile fun e => e.1 ≤ now })

end BoundedTimers

/-! ### The operator -/

/-- The accumulators of an open window. -/
structure TumbleEntry where
  windowStart : ℤ
  windowEnd : ℤ
  accs : List Accumulator

structure CountEntry where
  count : ℕ
  accs : List Accumulator

inductive WindowStore where
  | tumble (state : MemoryState TumbleEntry)
  | count (state : MemoryState CountEntry)

structure WindowConfig where
  operator : ℕ
  spec : WindowSpec
  groupIdx : List ℕ
  eventTimeIdx : Option ℕ
  input : Schema
  output : Schema
  externalWatermarks : Bool
  boundAggs : List (Option BoundExpr)
  variableAccs : Bool

structure WindowOperator extends WindowConfig where
  store : WindowStore
  timers : BoundedTimers
  hub : WatermarkHub
  holdback : Option OutputHoldback
  closedIndex : SortedMap (ℤ ×ₗ Bytes) (List Scalar)
  scratchLeased : Bool
  hoppingClockHigh : ℤ

/-- What a call emits. -/
structure WindowEmission where
  finals : List Row
  lates : List Row
  pendingClose : Option ℤ
  futureDropped : ℕ

def WindowEmission.none : WindowEmission :=
  { finals := [], lates := [], pendingClose := Option.none, futureDropped := 0 }

/-- Sizes that decide where a chunk of finals ends. -/
structure Sizes where
  entry : List Scalar → TumbleEntry → ℕ
  peek : TumbleEntry → ℕ
  row : Row → ℕ

/-! ### What only depends on the configuration -/

def etStateKey (group : List Scalar) (start : ℤ) : List Scalar := group ++ [.int64 (.ofInt start)]

def groupFromEtKey (key : List Scalar) : List Scalar := key.dropLast

def asEventTimeMicros : Scalar → Option ℤ
  | .int64 v => some v
  | .timestampMicrosUTC v => some v
  | .uInt64 v => if (v.toNat : ℤ) ≤ i64Max then some v.toNat else none
  | _ => none

namespace WindowConfig

variable (c : WindowConfig)

/-- Keys of event-time and hopping windows end with the start of the window. -/
def suffixedKey : Bool := c.spec.kind.usesEventTime || c.spec.kind.isPtHopping

/-- The group of a row. The rows of a batch have the columns of the input schema. -/
def groupKey (row : Row) : List Scalar := c.groupIdx.map fun i => row.values.getD i .null

def groupOf (key : List Scalar) : List Scalar :=
  if c.suffixedKey then groupFromEtKey key else key

/-- The event time of a row. The text of the last error goes on with the value. -/
def rowEventTime (row : Row) : Result ℤ :=
  match c.eventTimeIdx with
  | none => .error (.new .invalidArgument "event-time window missing event_time_field binding")
  | some i =>
    match row.values[i]? with
    | none => .error (.new .invalidArgument "event-time column missing on row")
    | some v =>
      match asEventTimeMicros v with
      | none => .error (.new .typeMismatch "event-time field must be Int64 or TimestampMicrosUTC, got ")
      | some ts => .ok ts

def isFuture (ts now : ℤ) : Bool :=
  (c.spec.binding.bind (·.maxFutureSkewMicros)).any fun skew => ts > satAddI now skew

def assigned (ts : ℤ) (size : Int64) (slide : Option Int64) : Result (List (ℤ × ℤ)) :=
  match slide with
  | some slide => assignHop ts size slide c.spec.maxOverlap
  | none => (assignTumble ts size).map fun window => [window]

/-! ### Accumulators -/

def emptyAccs : Result (List Accumulator) :=
  c.spec.aggs.mapM fun a => do Accumulator.new a.func (← a.inputType c.input) a.countStar

def argument (call : AggCall) (bound : Option BoundExpr) (row : Row) : Result Scalar :=
  if call.countStar then .ok .null
  else match bound with
    | some e => e.eval row.values
    | none => .ok .null

/-- Update each accumulator with the argument of its aggregate, stopping at an error. -/
def updateAccs (row : Row) : List Accumulator → List AggCall → List (Option BoundExpr) → Result Unit × List Accumulator
  | acc :: accs, call :: calls, bound =>
    match argument call (bound.head?.getD none) row >>= acc.update with
    | .error e => (.error e, acc :: accs)
    | .ok acc =>
      let (r, accs) := updateAccs row accs calls bound.tail
      (r, acc :: accs)
  | accs, _, _ => (.ok (), accs)

/-- `update_accs_metered`: a failed update leaves the old accumulators. -/
def updateAccsMetered (lease : Result Unit) (row : Row) (accs : List Accumulator) :
    Result Unit × List Accumulator :=
  if accs.length ≠ c.spec.aggs.length then
    (.error (.new .codecViolation "accumulator shape exceeds admitted scratch"), accs)
  else match updateAccs row accs c.spec.aggs c.boundAggs with
    | (.error e, _) => (.error e, accs)
    | (.ok (), new) =>
      match lease with
      | .error e => (.error e, accs)
      | .ok () => (.ok (), new)

def applyRow (lease : Result Unit) (row : Row) (accs : List Accumulator) :
    Result Unit × List Accumulator :=
  if c.variableAccs then c.updateAccsMetered lease row accs
  else updateAccs row accs c.spec.aggs c.boundAggs

/-- `finish_rows_metered`: the builder checks each row. -/
def buildMeteredBatch (leases : Leases) (rows : List Row) : Result (Option RowBatch) :=
  if rows = [] then .ok none
  else do
    rows.forM (checkRow c.output)
    leases .rows
    return some { schema := c.output, rows }

end WindowConfig

namespace WindowOperator

/-! ### Creation -/

def resolveKeys (input : Schema) (names : List String) : Result (List ℕ) :=
  names.mapM fun k => match input.indexOfName k with
    | some i => .ok i
    | none => .error (.new .invalidArgument s!"unknown group key '{k}'")

def resolveEventTime (input : Schema) : Option String → Result (Option ℕ)
  | none => .ok none
  | some name => match input.indexOfName name with
    | some i => .ok (some i)
    | none => .error (.new .invalidArgument s!"unknown event-time field '{name}'")

def isVariable : AggFn → Bool
  | .min | .max | .first | .last => true
  | _ => false

def newStore (kind : WindowKind) (operator maxKeys budgetKeys : ℕ) : Result WindowStore :=
  match kind with
  | .count _ => (MemoryState.new operator maxKeys budgetKeys).map .count
  | _ => (MemoryState.new operator maxKeys budgetKeys).map .tumble

def newHoldback (spec : WindowSpec) : Result (Option OutputHoldback) :=
  if spec.kind.usesEventTime then (OutputHoldback.new spec.latenessMicros).map some else .ok none

/-- Credit for the candidate accumulators, if some aggregate keeps a value. -/
def leaseScratch (variableAccs : Bool) (leases : Leases) : Result Unit :=
  if variableAccs then leases .scratch else .ok ()

/-- `WindowOperator::new`; the budget's own bound on keys is an argument, and so is whether
the kernel switches to external watermarks. -/
def new (operator : ℕ) (spec : WindowSpec) (input : Schema) (budgetKeys maxKeys maxTimers : ℕ)
    (externalWatermarks : Bool) (leases : Leases) : Result WindowOperator := do
  spec.validate
  refuseIf (spec.kind.isBuffered) (.new .featureUnavailable
    "buffered sliding/session windows use BufferedWindow through Kernel, not the legacy WindowOperator codec")
  let groupIdx ← resolveKeys input spec.keys
  let eventTimeIdx ← resolveEventTime input spec.eventTimeField
  let output ← windowOutputSchema input spec
  let boundAggs ← spec.aggs.mapM (·.bindInput input)
  let variableAccs := spec.aggs.any fun a => isVariable a.func
  let store ← newStore spec.kind operator maxKeys budgetKeys
  let hub ← WatermarkHub.ofBinding spec.binding
  let (registered, hub) := hub.register 0
  registered
  let holdback ← newHoldback spec
  leaseScratch variableAccs leases
  let timers ← BoundedTimers.new operator maxTimers
  return { operator, spec, groupIdx, eventTimeIdx, input, output, externalWatermarks, boundAggs
           variableAccs, store, timers, hub, holdback, closedIndex := .empty
           scratchLeased := variableAccs, hoppingClockHigh := 0 }

/-! ### Reading the operator -/

def wmOut (w : WindowOperator) : Option ℤ := w.holdback.bind (·.wmOut)

def wmIn (w : WindowOperator) : Option ℤ := w.holdback.bind (·.wmIn)

variable (w : WindowOperator)

/-! ### Open windows -/

def indexInsert (key : List Scalar) (stop : ℤ) : WindowOperator :=
  { w with closedIndex := w.closedIndex.insert (toLex (stop, encodeKeyValues key)) key }

def indexRemove (key : List Scalar) (stop : ℤ) : WindowOperator :=
  { w with closedIndex := w.closedIndex.erase (toLex (stop, encodeKeyValues key)) }

def scheduleEnd (stop : ℤ) : Result Unit × WindowOperator :=
  match w.timers.schedule stop with
  | .error e => (.error e, w)
  | .ok timers => (.ok (), { w with timers })

variable (leases : Leases)

/-- Open the `i`-th window of a row: an entry with empty accumulators, its place in the
index, and with `timer` its timer. -/
def openWindow (i : ℕ) (state : MemoryState TumbleEntry)
    (key : List Scalar) (start stop : ℤ) (timer : Bool) : Result Unit × WindowOperator :=
  match w.emptyAccs with
  | .error e => (.error e, w)
  | .ok accs =>
    match state.put (leases (.entry i)) key { windowStart := start, windowEnd := stop, accs } with
    | .error e => (.error e, w)
    | .ok state =>
      let w := { w with store := .tumble state }
      match leases (.index i) with
      | .error e => (.error e, w)
      | .ok () =>
        let w := w.indexInsert key stop
        if timer then w.scheduleEnd stop else (.ok (), w)

/-- Fold a row into the open window under `key`. -/
def foldRow (i : ℕ) (key : List Scalar) (row : Row) : Result Unit × WindowOperator :=
  match w.store with
  | .count _ => (.ok (), w)
  | .tumble state =>
    match state.get? key with
    | none => (.ok (), w)
    | some entry =>
      let (r, accs) := w.applyRow (leases (.update i)) row entry.accs
      (r, { w with store := .tumble (state.set key { entry with accs }) })

def ensureWindow (i : ℕ) (key : List Scalar) (start stop : ℤ)
    (timer : Bool) : Result Unit × WindowOperator :=
  match w.store with
  | .count _ => (.ok (), w)
  | .tumble state =>
    if (state.get? key).isSome then (.ok (), w)
    else w.openWindow leases i state key start stop timer

/-- `upsert_et_window`. -/
def upsertEtWindow (i : ℕ) (group : List Scalar)
    (start stop : ℤ) (row : Row) : Result Unit × WindowOperator :=
  let key := etStateKey group start
  match w.ensureWindow leases i key start stop w.spec.kind.isPtHopping with
  | (.error e, w) => (.error e, w)
  | (.ok (), w) => w.foldRow leases i key row

/-- Upsert a row into windows, numbered from `i`, stopping at an error. -/
def upsertAll (w : WindowOperator) (leases : Leases) (group : List Scalar) (row : Row) :
    ℕ → List (ℤ × ℤ) → Result Unit × WindowOperator
  | _, [] => (.ok (), w)
  | i, (start, stop) :: rest =>
    match w.upsertEtWindow leases i group start stop row with
    | (.error e, w) => (.error e, w)
    | (.ok (), w) => w.upsertAll leases group row (i + 1) rest

/-! ### Watermarks -/

/-- Apply the watermark of the hub to the holdback. Windows are not taken here: the caller
takes them in chunks and advances the holdback after that. -/
def drainWatermark : Result WindowEmission × WindowOperator :=
  match w.holdback, w.hub.progress with
  | some holdback, some wmIn =>
    let (r, holdback) := holdback.onWmIn wmIn
    (r.map fun pendingClose => { WindowEmission.none with pendingClose }, { w with holdback })
  | _, _ => (.ok .none, w)

def onHub (call : WatermarkHub → Result (Option ℤ) × WatermarkHub) :
    Result WindowEmission × WindowOperator :=
  match call w.hub with
  | (.error e, hub) => (.error e, { w with hub })
  | (.ok _, hub) => drainWatermark { w with hub }

/-- `mark_idle`. -/
def markIdle (w : WindowOperator) (id : InputId) : Result WindowEmission × WindowOperator := w.onHub (·.markIdle id)

/-- `mark_active`. -/
def markActive (w : WindowOperator) (id : InputId) : Result WindowEmission × WindowOperator := w.onHub (·.markActive id)

/-- `observe_watermark`. -/
def observeWatermark (id : InputId) (wm : ℤ) : Result WindowEmission × WindowOperator :=
  w.onHub (·.setWatermark id wm)

/-- `advance_holdback`. -/
def advanceHoldback (wmOut : ℤ) : Result Unit × WindowOperator :=
  match w.holdback with
  | none => (.ok (), w)
  | some holdback =>
    match holdback.advanceOut wmOut with
    | .error e => (.error e, w)
    | .ok holdback => (.ok (), { w with holdback := some holdback })

/-! ### Rows -/

/-- The windows that are not closed at the output watermark. -/
def stillOpen (wmOut : Option ℤ) (windows : List (ℤ × ℤ)) : List (ℤ × ℤ) :=
  windows.filter fun window => !wmOut.any fun out => window.2 ≤ out

/-- Without external watermarks, observe the event time of a row. -/
def observeRow (ts now : ℤ) : Result Unit × WindowOperator :=
  if w.externalWatermarks then (.ok (), w)
  else
    let (r, hub) := w.hub.observeEvent .single ts now
    (r.map fun _ => (), { w with hub })

/-- Fold a row into its open windows, or report it late, then drain. -/
def foldEtRow (row : Row) (windows : List (ℤ × ℤ)) : Result WindowEmission × WindowOperator :=
  let windows := stillOpen w.wmOut windows
  match w.upsertAll leases (w.groupKey row) row 0 windows with
  | (.error e, w) => (.error e, w)
  | (.ok (), w) =>
    let (r, w) := w.drainWatermark
    (r.map fun out => { out with lates := out.lates ++ if windows = [] then [row] else [] }, w)

/-- `on_et_row`. -/
def onEtRow (row : Row) (now : ℤ) (size : Int64)
    (slide : Option Int64) : Result WindowEmission × WindowOperator :=
  match w.rowEventTime row with
  | .error e => (.error e, w)
  | .ok ts =>
    if w.isFuture ts now then (.ok { WindowEmission.none with futureDropped := 1 }, w)
    else match w.observeRow ts now with
      | (.error e, w) => (.error e, w)
      | (.ok (), w) =>
        match w.assigned ts size slide with
        | .error e => (.error e, w)
        | .ok windows => w.foldEtRow leases row windows

/-- Remove the window under `key` and emit it for that key. -/
def evictWindow (state : MemoryState TumbleEntry) (key : List Scalar)
    (entry : TumbleEntry) : Row × WindowOperator :=
  (resultRow key entry.windowStart entry.windowEnd entry.accs,
    indexRemove { w with store := .tumble (state.remove key) } key entry.windowEnd)

/-- Remove and emit the window under `key` if `p` holds of it. -/
def evictIf (key : List Scalar) (p : TumbleEntry → Bool) : List Row × WindowOperator :=
  match w.store with
  | .count _ => ([], w)
  | .tumble state =>
    match state.get? key with
    | none => ([], w)
    | some entry =>
      if p entry then
        let (row, w) := w.evictWindow state key entry
        ([row], w)
      else ([], w)

/-- `on_tumble_row`: a processing-time window that is over goes first, then one for other
bounds, which a clock going back leaves. -/
def onTumbleRow (row : Row) (now : ℤ) (size : Int64) : Result (List Row) × WindowOperator :=
  match assignTumble now size with
  | .error e => (.error e, w)
  | .ok (start, stop) =>
    let key := w.groupKey row
    let (stale, w) := w.evictIf key fun e => e.windowEnd ≤ now ∧ e.windowStart ≠ start
    match w.ensureWindow leases 0 key start stop true with
    | (.error e, w) => (.error e, w)
    | (.ok (), w) =>
      let (rotated, w) := w.evictIf key fun e => e.windowStart ≠ start
      match w.ensureWindow leases 1 key start stop true with
      | (.error e, w) => (.error e, w)
      | (.ok (), w) =>
        let (r, w) := w.foldRow leases 0 key row
        (r.map fun _ => stale ++ rotated, w)

def ensureCount (state : MemoryState CountEntry)
    (key : List Scalar) : Result (MemoryState CountEntry) :=
  if (state.get? key).isSome then .ok state
  else do
    let accs ← w.emptyAccs
    state.put (leases (.entry 0)) key { count := 0, accs }

/-- `on_count_row`. -/
def onCountRow (row : Row) (size : ℕ) : Result (List Row) × WindowOperator :=
  match w.store with
  | .tumble _ => (.ok [], w)
  | .count state =>
    let key := w.groupKey row
    match w.ensureCount leases state key with
    | .error e => (.error e, w)
    | .ok state =>
      match state.get? key with
      | none => (.ok [], { w with store := .count state })
      | some entry =>
        match w.applyRow (leases (.update 0)) row entry.accs with
        | (.error e, accs) => (.error e, { w with store := .count (state.set key { entry with accs }) })
        | (.ok (), accs) =>
          let count := entry.count + 1
          if count ≥ size then
            (.ok [resultRow key 0 count accs], { w with store := .count (state.remove key) })
          else (.ok [], { w with store := .count (state.set key { count, accs }) })

/-- The clock of a processing-time hopping window does not go back. -/
def hoppingNow (now : ℤ) : ℤ × WindowOperator :=
  if now ≥ 0 ∧ w.spec.kind.isPtHopping then
    let high := max w.hoppingClockHigh now
    (high, { w with hoppingClockHigh := high })
  else (now, w)

/-- Credit for the candidate accumulators, taken again after a restore. -/
def leaseAgain : Result Unit × WindowOperator :=
  if w.variableAccs ∧ ¬ w.scratchLeased then
    match leases .scratch with
    | .error e => (.error e, w)
    | .ok () => (.ok (), { w with scratchLeased := true })
  else (.ok (), w)

def onRowKind (row : Row) (now : ℤ) : Result WindowEmission × WindowOperator :=
  match w.spec.kind with
  | .tumblingProcessingTime size =>
    let (r, w) := w.onTumbleRow leases row now size
    (r.map fun finals => { WindowEmission.none with finals }, w)
  | .count size =>
    let (r, w) := w.onCountRow leases row size
    (r.map fun finals => { WindowEmission.none with finals }, w)
  | .tumblingEventTime size => w.onEtRow leases row now size none
  | .hoppingEventTime size slide => w.onEtRow leases row now size (some slide)
  | .hoppingProcessingTime size slide =>
    match assignHop now size slide w.spec.maxOverlap with
    | .error e => (.error e, w)
    | .ok windows =>
      let (r, w) := w.upsertAll leases (w.groupKey row) row 0 windows
      (r.map fun _ => .none, w)
  | _ => (.error (.new .featureUnavailable "buffered window requires its dedicated executor"), w)

/-- `on_row`. -/
def onRow (row : Row) (now : ℤ) : Result WindowEmission × WindowOperator :=
  let (now, w) := w.hoppingNow now
  match w.leaseAgain leases with
  | (.error e, w) => (.error e, w)
  | (.ok (), w) => w.onRowKind leases row now

def laterClose : Option ℤ → Option ℤ → Option ℤ
  | some a, some b => some (max a b)
  | some a, none => some a
  | none, b => b

/-- What a batch has emitted, with what one more row emits. -/
def WindowEmission.extend (out one : WindowEmission) : WindowEmission :=
  { finals := out.finals ++ one.finals
    lates := out.lates ++ one.lates
    pendingClose := laterClose out.pendingClose one.pendingClose
    futureDropped := satAdd out.futureDropped one.futureDropped }

/-- `on_batch_without_timers`, the rows of the batch from the `i`-th on, `out` being what
those before it emitted. -/
def onRows (w : WindowOperator) (leases : ℕ → Leases) (now : ℤ) :
    ℕ → WindowEmission → List Row → Result WindowEmission × WindowOperator
  | _, out, [] => (.ok out, w)
  | i, out, row :: rest =>
    match w.onRow (leases i) row now with
    | (.error e, w) => (.error e, w)
    | (.ok one, w) => w.onRows leases now (i + 1) (WindowEmission.extend out one) rest

/-- `on_batch_without_timers`. -/
def onBatchWithoutTimers (leases : ℕ → Leases) (rows : List Row) (now : ℤ) :
    Result WindowEmission × WindowOperator :=
  w.onRows leases now 0 .none rows

/-! ### Taking closed windows -/

/-- The first window closed at `cut`. -/
def nextClosedKey (cut : ℤ) : Option (List Scalar) :=
  match w.closedIndex.first? with
  | some (entry, key) => if (ofLex entry).1 ≤ cut then some key else none
  | none => none

/-- `take_closed_one`: remove and emit the first window closed at `cut`. Index entries
without a window are dropped on the way; each round drops one, which bounds the rounds. -/
def takeClosedFor (cut : ℤ) : ℕ → WindowOperator → Option Row × WindowOperator
  | 0, w => (none, w)
  | n + 1, w =>
    match w.nextClosedKey cut with
    | none => (none, w)
    | some key =>
      let found := match w.store with
        | .tumble state => (state.get? key).map fun entry => (state, entry)
        | .count _ => none
      match found with
      | some (state, entry) =>
        let w := { w with store := .tumble (state.remove key) }
        (some (resultRow (w.groupOf key) entry.windowStart entry.windowEnd entry.accs),
          w.indexRemove key entry.windowEnd)
      | none =>
        takeClosedFor cut n { w with
          closedIndex := w.closedIndex.filter fun e => encodeKeyValues e.2 ≠ encodeKeyValues key }

/-- `take_closed_one`. -/
def takeClosedOne (cut : ℤ) : Option Row × WindowOperator :=
  takeClosedFor cut (w.closedIndex.size + 1) w

def peekClosedBytes (sizes : Sizes) (cut : ℤ) : Option ℕ :=
  match w.nextClosedKey cut, w.store with
  | some key, .tumble state => (state.get? key).map sizes.peek
  | _, _ => none

/-- `take_closed_chunk`: up to `n` rows, `out` and `bytes` being what was taken before. -/
def takeClosedChunk (sizes : Sizes) (cut : ℤ) (maxBytes : ℕ) :
    ℕ → ℕ → List Row → WindowOperator → List Row × WindowOperator
  | 0, _, out, w => (out, w)
  | n + 1, bytes, out, w =>
    match w.peekClosedBytes sizes cut with
    | none => (out, w)
    | some size =>
      if out ≠ [] ∧ satAdd bytes size > maxBytes then (out, w)
      else match w.takeClosedOne cut with
        | (none, w) => (out, w)
        | (some row, w) =>
          takeClosedChunk sizes cut maxBytes n (satAdd bytes (sizes.row row)) (out ++ [row]) w

/-- How many closed windows fit one chunk, of the index entries given; `wire` and `count`
are those of the entries before. -/
def chunkCount (sizes : Sizes) (state : MemoryState TumbleEntry) (cut : ℤ) (maxRows maxBytes : ℕ) :
    ℕ → ℕ → List ((ℤ ×ₗ Bytes) × List Scalar) → Result ℕ
  | _, count, [] => .ok count
  | wire, count, (entry, key) :: rest =>
    if (ofLex entry).1 > cut ∨ count ≥ max maxRows 1 then .ok count
    else match state.get? key with
      | none => .error (.new .internal "closed index has no state entry")
      | some window =>
        let bytes := sizes.entry key window
        if count > 0 ∧ satAdd wire bytes > maxBytes then .ok count
        else chunkCount sizes state cut maxRows maxBytes (satAdd wire bytes) (count + 1) rest

/-- The cut of a processing-time hopping window is not below its clock. -/
def chunkCut (cut : ℤ) : ℤ :=
  if w.spec.kind.isPtHopping then max cut w.hoppingClockHigh else cut

/-- `take_closed_batch`: one chunk of the windows closed at `cut`. -/
def takeClosedBatch (sizes : Sizes) (leases : Leases) (cut : ℤ)
    (maxRows maxBytes : ℕ) : Result (Option RowBatch) × WindowOperator :=
  let cut := w.chunkCut cut
  let counted := match w.store with
    | .tumble state => chunkCount sizes state cut maxRows maxBytes 0 0 w.closedIndex.entries
    | .count _ => .ok 0
  match counted with
  | .error e => (.error e, w)
  | .ok count =>
    if count = 0 then (.ok none, w)
    else match leases .chunk with
      | .error e => (.error e, w)
      | .ok () =>
        let (rows, w) := takeClosedChunk sizes cut maxBytes (max count 1) 0 [] w
        (w.buildMeteredBatch leases rows, w)

/-- `begin_due`: drop the timers that are due; whether there were any. -/
def beginDue (now : ℤ) : Bool × WindowOperator :=
  let (now, w) := w.hoppingNow now
  if w.spec.kind.usesEventTime then (false, w)
  else
    let (due, timers) := w.timers.fireDue now
    (due ≠ [], { w with timers })

/-! ### End of input, release -/

/-- `finish_input`. -/
def finishInput : Result WindowEmission × WindowOperator :=
  match w.hub.markActive .single with
  | (.error e, hub) => (.error e, { w with hub })
  | (.ok _, hub) => onHub { w with hub } (·.setWatermark .single i64Max)

/-- `cleanup`. -/
def cleanup : WindowOperator :=
  { w with
    store := match w.store with
      | .tumble s => .tumble { s with entries := .empty }
      | .count s => .count { s with entries := .empty }
    closedIndex := .empty
    timers := { w.timers with live := .empty }
    scratchLeased := false }

end WindowOperator

end Sparrow.Runtime
