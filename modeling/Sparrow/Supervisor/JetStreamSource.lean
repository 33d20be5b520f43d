import Sparrow.Connectors.JetStreamReader

/-!
# The JetStream source

The actor of `sparrow-control/src/supervisor/jetstream_source.rs`, which hands the records of
a stream to a job, and the input quarantine it stores undecodable ones in
(`sparrow-control/src/input_dlq.rs`).

## The model

A `Turn` is one pass of the loop of `run`: what the broker, the job, the checkpoint workers
and the clock do in it is given with it, and `World.turn` is what the actor makes of it. The
branch that the `select` takes is given too; a branch whose guard is false does nothing. An
error ends the attempt, as does a cancellation, which has no turn. A worker is the cut it
commits, or none if its barrier was not sent.

The world has the events sent to the job, the quarantine and, as a history that the code does
not keep, the records handed out by the reader, the pending messages that were repeated, and
the cut of each barrier.
-/

namespace Sparrow.Supervisor

open Library Model Connectors

/-! ### The input quarantine -/

/-- `poison::record_error`. -/
def recordError : ErrorCode → Bool
  | .invalidArgument | .invalidSchema | .typeMismatch | .codecViolation | .boundExceeded | .maxRecordSize => true
  | _ => false

/-- A row of the table `records`. -/
structure Poison where
  position : ℕ
  recordIndex : ℕ
  body : Bytes
  digest : Bytes
  code : ErrorCode

/-- `InputDlq`. -/
structure InputDlq where
  maxEntries : ℕ
  maxPayloadBytes : ℕ
  source : Option String
  replayFloor : ℕ
  /-- The table `records`. -/
  records : List Poison

/-- `i64::MAX`. -/
def i64Max : ℕ := 2 ^ 63 - 1

/-- `input_dlq::invalid`. -/
def invalid (message : String) : SparrowError := .new .invalidArgument message

/-- `poison::quarantine_full`. -/
def quarantineFullError (e : SparrowError) : Bool :=
  e.code == .resourceExhausted && e.context.any fun c => c.1 == "input_dlq_full" && c.2 == "true"

namespace InputDlq

/-- `check_start`. -/
def checkStart (q : InputDlq) (identity : String) (position : ℕ) : Result InputDlq := do
  refuseIf ((∃ saved ∈ q.source, saved ≠ identity) ∨ position < q.replayFloor)
    (.new .unsupportedRestore "input DLQ source incarnation differs or checkpoint precedes retired replay floor")
  return { q with source := some (q.source.getD identity) }

/-- `capture`; `db` is what the database itself does. -/
def capture (q : InputDlq) (sha256 : Bytes → Bytes) (identity : String) (position recordIndex : ℕ) (payload : Bytes)
    (code : ErrorCode) (db : Result Unit) : Result InputDlq := do
  refuseIf (recordError code = false ∨ 65536 < payload.length ∨ position = 0 ∨ i64Max < position ∨ i64Max < recordIndex)
    (invalid "record cannot be safely quarantined")
  let q ← q.checkStart identity position
  db
  match q.records.find? fun p => p.position = position with
  | some old => do
    refuseIf (old.digest ≠ sha256 payload ∨ 65536 < old.body.length)
      (.new .codecViolation "same source position has different poison payload")
    refuseIf (old.body ≠ payload)
      (.new .codecViolation "stored input quarantine body differs; refusing dedup acknowledgement")
    return q
  | none => do
    refuseIf (q.maxEntries ≤ q.records.length ∨
        q.maxPayloadBytes < satAdd (q.records.map fun p => p.body.length).sum payload.length)
      ((SparrowError.new .resourceExhausted "input DLQ full; refusing to skip or ACK").withContext
        "input_dlq_full" "true")
    return { q with records := q.records ++ [{ position, recordIndex, body := payload, digest := sha256 payload, code }] }

end InputDlq

/-! ### The actor -/

/-- What does not change in an attempt. -/
structure ActorConfig where
  reader : ReaderConfig
  schema : Schema
  /-- `batch_rows`. -/
  batchRows : ℕ
  /-- `row_limit`. -/
  rowLimit : ℕ
  reservationCap : ℕ
  identity : String

/-- The fields of `Actor` that change. -/
structure Actor where
  reader : Reader
  deferred : Option InputRecord
  quarantineFull : Bool
  ingested : ℕ
  nextCheckpoint : ℕ
  bootstrap : Bool
  workers : List (Option ℕ)

/-- What is sent to the job. -/
inductive IngressEvent where
  | batch (rows : List Row)
  | checkpointBarrier (id : ℕ)

/-- The actor, with what it writes to and what has happened. -/
structure World where
  actor : Actor
  dlq : Option InputDlq
  sent : List IngressEvent
  cuts : List (ℕ × ℕ)
  admitted : List InputRecord
  repeats : List Frame

/-- A field of an error that `decode_failure` may show. -/
def safeContext (key value : String) : Bool :=
  if key = "credit" then value == "reservation" || value == "retention" || value == "queue"
  else
    let digits := if value.startsWith "+" then value.toList.drop 1 else value.toList
    digits.all Char.isDigit && !digits.isEmpty && (String.ofList digits).toNat?.all (· ≤ usizeMax) && value.length ≤ 20

/-- `decode_failure`. -/
def decodeFailure (sequence : ℕ) (cause : SparrowError) : SparrowError :=
  let code := cause.code.asStr
  let error := (SparrowError.new cause.code s!"JetStream decode failed at source_sequence={sequence} ({code})").withContext
    "source_sequence" (toString sequence)
  if cause.code = .resourceExhausted then
    ["credit", "used", "request", "cap"].foldl (fun (error : SparrowError) key =>
      match cause.context.find? fun c => c.1 == key with
      | some (_, value) =>
        if safeContext key value then
          { error with message := error.message ++ s!" {key}={value}" }.withContext key value
        else error
      | none => error) error
  else error

/-! ### One batch -/

/-- What happens in one pass of the loop of `publish_input`. -/
structure Quantum where
  scratch : List Pool
  credit : BuilderCredit
  capture : List Pool
  db : Result Unit
  poll : Option (Arrival × Memory)

/-- The local variables of `publish_input`. -/
structure Batch where
  builder : RowBatchBuilder
  record : Option InputRecord
  lastSequence : ℕ

/-- What happens in `publish_input`. -/
structure PublishEnv where
  quanta : ℕ → Quantum
  finish : BuilderCredit
  send : Result Unit

/-- What becomes of the barrier that `checkpoint` sends. -/
inductive Injected where
  | sent
  | timedOut
  | closed

/-- What happens in `checkpoint`. -/
structure CheckpointEnv where
  /-- `verify`. -/
  verify : Result Unit
  /-- `begin_with_deadline`. -/
  begins : Result Unit
  injected : Injected

namespace World

variable (config : ActorConfig)

/-- `Reader::next`, with the history. -/
def poll (w : World) (arrival : Arrival) (memory : Memory) : Result (World × ReaderPoll) := do
  let (reader, poll) ← w.actor.reader.next config.reader arrival memory
  let w' := { w with actor := { w.actor with reader } }
  match poll, arrival with
  | .record r, _ => return ({ w' with admitted := w.admitted ++ [r] }, poll)
  | .duplicate, .frame f =>
    if w.actor.reader.ledger.committed < f.streamSequence then
      return ({ w' with repeats := w.repeats ++ [f] }, poll)
    else return (w', poll)
  | _, _ => return (w', poll)

variable (w : World)

/-- The end of a pass: one more record, if the batch has room. The last part says to stop. -/
def refill (b : Batch) (q : Quantum) : Result (World × Batch × Bool) :=
  if config.batchRows ≤ b.builder.rows.length then .ok (w, b, true)
  else match q.poll with
    | none => .ok (w, b, true)
    | some (arrival, memory) => do
      let (w, poll) ← w.poll config arrival memory
      match poll with
      | .record r => return (w, { b with record := some r }, false)
      | .duplicate => return (w, b, false)
      | _ => return (w, b, true)

def poison (b : Batch) (next : InputRecord) (e : SparrowError) (q : Quantum) : Result (World × Batch × Bool) :=
  if recordError e.code then
    match w.dlq with
    | none => .error (decodeFailure next.sequence e)
    | some queue => do
      acquire .reservation (satAdd (satMul next.payload.length 2) 65536) q.capture
      match queue.capture config.reader.sha256 config.identity next.sequence w.actor.ingested
        next.payload e.code q.db with
      | .error error =>
        if quarantineFullError error then
          return ({ w with actor := { w.actor with deferred := some next, quarantineFull := true } }, b, true)
        else .error error
      | .ok queue =>
        return ({ w with dlq := some queue, actor := { w.actor with quarantineFull := false } },
          { b with lastSequence := next.sequence }, true)
  else .error (decodeFailure next.sequence e)

/-- One pass of the loop of `publish_input`. -/
def pass (b : Batch) (q : Quantum) : Result (World × Batch × Bool) :=
  match b.record with
  | none => refill config w b q
  | some next =>
    let b := { b with record := none }
    match next.decodeInto config.reader.format config.schema b.builder config.rowLimit q.scratch q.credit with
    | .ok (builder, true) => refill config w { b with builder, lastSequence := next.sequence } q
    | .ok (_, false) => .ok ({ w with actor := { w.actor with deferred := some next } }, b, true)
    | .error e => poison config w b next e q

/-- The loop of `publish_input`. -/
def drain (quanta : ℕ → Quantum) : ℕ → World → Batch → Result (World × Batch)
  | 0, w, b => .ok (w, b)
  | n + 1, w, b => do
    let (w, b, stop) ← pass config w b (quanta n)
    if stop then return (w, b) else drain quanta n w b

/-- `published` for the sequences of a batch. -/
def publishAll (l : DeliveryLedger) (first last : ℕ) : Result DeliveryLedger :=
  (List.range' first (last + 1 - first)).foldlM DeliveryLedger.publish l

def send (rows : List Row) (outcome : Result Unit) : Result World :=
  if rows = [] then .ok w
  else do
    outcome
    return { w with sent := w.sent ++ [.batch rows] }

/-- `publish_input`. -/
def publishInput (first : InputRecord) (env : PublishEnv) : Result World := do
  let builder ← RowBatchBuilder.new config.schema config.batchRows config.rowLimit config.reservationCap
  let (w, b) ← drain config env.quanta config.batchRows w
    { builder, record := some first, lastSequence := first.sequence - 1 }
  let w := { w with actor := { w.actor with deferred := b.record.or w.actor.deferred } }
  let batch ← b.builder.finish env.finish
  let w ← w.send batch.rows env.send
  let ledger ← publishAll w.actor.reader.ledger first.sequence b.lastSequence
  refuseIf (usizeMax < w.actor.ingested + batch.rows.length) (.new .integerOverflow "JetStream row counter exhausted")
  return { w with actor := { w.actor with
    reader := { w.actor.reader with ledger }
    ingested := w.actor.ingested + batch.rows.length } }

/-- `checkpoint`. -/
def checkpoint (w : World) (env : CheckpointEnv) : Result World := do
  env.verify
  let cut := w.actor.reader.ledger.published
  let id := w.actor.nextCheckpoint
  refuseIf (usizeMax ≤ id) (.new .boundExceeded "checkpoint id exhausted")
  env.begins
  let w := { w with actor := { w.actor with nextCheckpoint := id + 1 } }
  match env.injected with
  | .closed => .error (retryable .jobFailed "JetStream barrier publication failed")
  | .timedOut => return { w with actor := { w.actor with workers := w.actor.workers ++ [none] } }
  | .sent =>
    return { w with
      sent := w.sent ++ [.checkpointBarrier id]
      cuts := w.cuts ++ [(id, cut)]
      actor := { w.actor with workers := w.actor.workers ++ [some cut] } }

end World

/-! ### One turn -/

/-- How a checkpoint worker ends. -/
inductive Joined where
  | committed (acks : Reader.AckTurn)
  | timedOut
  | failed (e : SparrowError)

/-- The branches of the `select` of `run`. -/
inductive Branch where
  | acknowledged (acks : Reader.AckTurn)
  | slept
  | joined (worker : ℕ) (outcome : Joined)
  | command (env : Option CheckpointEnv)
  | progress (checked : Result Unit)
  | input (arrival : Arrival) (memory : Memory) (env : PublishEnv)

/-- One pass of the loop of `run`. -/
structure Turn where
  outputFailed : Bool
  acks : Reader.AckTurn
  pullDue : Bool
  retention : ℕ
  fetch : Result Unit
  retryDue : Bool
  /-- `try_begin`, and what happens in the checkpoint. -/
  admission : Result (Option CheckpointEnv)
  branch : Branch

namespace World

variable (config : ActorConfig) (w : World)

def cutPending : Bool := w.actor.reader.ledger.committed < w.actor.reader.ledger.published

/-- The quarantine is full and there is a cut to commit first. -/
def poisonCutPending : Bool := w.actor.quarantineFull && w.cutPending

def prepare (t : Turn) : Result (World × Bool) :=
  if w.actor.bootstrap || w.poisonCutPending || !t.pullDue then .ok (w, false)
  else if w.actor.deferred.isSome then .ok (w, true)
  else do
    let (reader, ready) ← w.actor.reader.preparePull config.reader t.retention t.fetch
    return ({ w with actor := { w.actor with reader } }, ready)

/-- A checkpoint, if one is needed and admitted. -/
def cutIfNeeded (t : Turn) (ready : Bool) : Result World :=
  let needsCut := w.actor.bootstrap || w.poisonCutPending || (!ready && t.pullDue && w.cutPending)
  if needsCut && w.actor.workers.isEmpty && t.retryDue then do
    match ← t.admission with
    | some env => w.checkpoint env
    | none => return w
  else .ok w

def join (worker : ℕ) (outcome : Joined) : Result World :=
  match w.actor.workers[worker]? with
  | none => .ok w
  | some cut =>
    let w := { w with actor := { w.actor with workers := w.actor.workers.eraseIdx worker } }
    match outcome, cut with
    | .failed e, _ => .error e
    | .committed acks, some cut => do
      let reader ← w.actor.reader.markCommitted cut acks
      return { w with actor := { w.actor with reader, bootstrap := false } }
    | _, _ => .ok w

def input (arrival : Arrival) (memory : Memory) (env : PublishEnv) : Result World :=
  match w.actor.deferred with
  | some r => publishInput config { w with actor := { w.actor with deferred := none } } r env
  | none => do
    let (w, poll) ← w.poll config arrival memory
    match poll with
    | .record r => publishInput config w r env
    | _ => return w

def select (ready : Bool) : Branch → Result World
  | .acknowledged acks => do
    let reader ← w.actor.reader.serviceAcknowledgements acks
    return { w with actor := { w.actor with reader } }
  | .slept => .ok w
  | .joined worker outcome => w.join worker outcome
  | .command none => .ok w
  | .command (some env) => w.checkpoint env
  | .progress checked => do
    checked
    return w
  | .input arrival memory env => if ready then w.input config arrival memory env else .ok w

/-- One pass of the loop of `run`. -/
def turn (t : Turn) : Result World := do
  refuseIf t.outputFailed (retryable .jobFailed "JetStream required HTTP output failed; input remains uncommitted")
  let reader ← w.actor.reader.serviceAcknowledgements t.acks
  let (w, ready) ← prepare config { w with actor := { w.actor with reader } } t
  let w ← w.cutIfNeeded t ready
  w.select config ready t.branch

def run (turns : List Turn) : Result World := turns.foldlM (turn config) w

/-- The start of an attempt: the ledger at the restored cut, and nothing read or sent. -/
def start (ledger : DeliveryLedger) (dlq : Option InputDlq) (ingested nextCheckpoint : ℕ)
    (bootstrap : Bool) : World where
  actor := {
    reader := { ledger, pull := none, active := 0, redeliveries := 0, pulls := 0 }
    deferred := none, quarantineFull := false, ingested, nextCheckpoint, bootstrap, workers := [] }
  dlq := dlq
  sent := []
  cuts := []
  admitted := []
  repeats := []

end World

end Sparrow.Supervisor
