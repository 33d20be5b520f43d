import Sparrow.Library.SortedMap
import Sparrow.Model.Scalar
import Sparrow.Model.Window

/-!
# The durable HTTP outbox

`sparrow-control/src/outbox.rs`: HTTP requests are kept in a database until they are delivered.
A request is pending until it is delivered or has used up its retries; then it goes to the dead
letters, or is blocked at the head of the queue while there is no room for it. An operator sends a
dead letter again or removes it for good.

## The model

`Store` is what the database holds: one row of `meta`, and the rows of `entries` by their id. Each
call is one transaction, a function to a `Result`: on an error the database is as it was. SQLite
integers are signed, so that a time is written as `asI64` of it, and reading a negative one back as
an unsigned number fails. The digest of a body is the argument `hash`, and whether the memory owner
grants the credit of a request is an argument of `next`.

The file checks of `open`, the identity of the database and the views for the operator are left
out.
-/

namespace Sparrow.Control

open Library Model

structure OutboxSpec where
  maxDiskBytes : ℕ
  maxPendingBytes : ℕ
  maxDlqBytes : ℕ
  maxPendingEntries : ℕ
  maxDlqEntries : ℕ
  maxRecordBytes : ℕ
  maxAttempts : ℕ
  maxRetryElapsedMs : ℕ
  retryBaseMs : ℕ
  retryMaxMs : ℕ

def outboxError (code : ErrorCode) (message : String) : SparrowError :=
  (SparrowError.new code message).withContext "component" "durable_http_outbox"

def invalid (message : String) : SparrowError := outboxError .invalidArgument message

def db (message : String) : SparrowError := outboxError .internal s!"outbox database: {message}"

/-- `OutboxSpec::validate`, without the checks of the directory. -/
def OutboxSpec.validate (spec : OutboxSpec) : Result Unit :=
  refuseIf (¬ (8 * 1024 * 1024 ≤ spec.maxDiskBytes ∧ spec.maxDiskBytes ≤ 4 * 1024 * 1024 * 1024) ∨
      ¬ (1 ≤ spec.maxPendingEntries ∧ spec.maxPendingEntries ≤ 10000) ∨
      ¬ (1 ≤ spec.maxDlqEntries ∧ spec.maxDlqEntries ≤ 10000) ∨
      ¬ (2 ≤ spec.maxRecordBytes ∧ spec.maxRecordBytes ≤ 1024 * 1024) ∨
      spec.maxPendingBytes < spec.maxRecordBytes ∨ spec.maxDlqBytes < spec.maxRecordBytes ∨
      satAdd spec.maxPendingBytes spec.maxDlqBytes > spec.maxDiskBytes / 4 ∨
      ¬ (1 ≤ spec.maxAttempts ∧ spec.maxAttempts ≤ 100) ∨
      ¬ (1000 ≤ spec.maxRetryElapsedMs ∧ spec.maxRetryElapsedMs ≤ 7 * 24 * 3600 * 1000) ∨
      ¬ (25 ≤ spec.retryBaseMs ∧ spec.retryBaseMs ≤ 60000) ∨ spec.retryMaxMs < spec.retryBaseMs ∨
      spec.retryMaxMs > 3600000)
    (invalid ("invalid durable outbox limits: absolute directory, disk 8MiB..4GiB, total payload <= disk/4, " ++
      "bounded entries/body/retries required"))

/-- `OutboxSpec::backoff`. -/
def OutboxSpec.backoff (spec : OutboxSpec) (attempts : ℕ) : ℕ :=
  min (satMul spec.retryBaseMs (2 ^ min (attempts - 1) 30)) spec.retryMaxMs

/-! ### The database -/

inductive EntryState where
  | pending
  | dlq
  | blocked
  deriving DecidableEq, Repr

/-- A row of `entries`. -/
structure Entry where
  state : EntryState
  body : Bytes
  digest : String
  createdMs : ℤ
  attempts : ℕ
  nextMs : ℤ
  reason : String
  replayGeneration : ℕ

/-- A row of `audit`. -/
structure AuditRow where
  atMs : ℤ
  action : String
  entry : Option ℤ
  detail : String

/-- The row of `meta`. -/
structure Meta where
  nextId : ℤ
  paused : Bool
  accepted : ℕ
  delivered : ℕ
  dead : ℕ
  replayed : ℕ
  purged : ℕ

/-- The database. -/
structure Store where
  uuid : String
  totals : Meta
  entries : SortedMap ℤ Entry
  audit : List AuditRow

def Store.new (uuid : String) : Store :=
  { uuid
    totals := { nextId := 1, paused := false, accepted := 0, delivered := 0, dead := 0, replayed := 0, purged := 0 }
    entries := .empty
    audit := [] }

/-- `as i64` of an unsigned number. -/
def asI64 (n : ℕ) : ℤ := (Int64.ofNat n).toInt

/-- Read an unsigned number from column `i`. -/
def readU64 (i : ℕ) (z : ℤ) : Result ℕ :=
  if z < 0 then .error (db s!"Integer {z} out of range at index {i}") else .ok z.toNat

namespace Store

/-- An entry counts for a pool: the blocked ones are still among the pending. -/
def inPool (pool : EntryState) (e : Entry) : Bool := e.state = pool ∨ (pool = .pending ∧ e.state = .blocked)

variable (s : Store)

/-- The number of entries in a pool, and the bytes of their bodies. -/
def poolTotals (pool : EntryState) : ℕ × ℕ :=
  let rows := s.entries.entries.filter fun e => inPool pool e.2
  (rows.length, (rows.map fun e => e.2.body.length).sum)

variable (spec : OutboxSpec)

def caps : EntryState → ℕ × ℕ
  | .pending => (spec.maxPendingEntries, spec.maxPendingBytes)
  | _ => (spec.maxDlqEntries, spec.maxDlqBytes)

def poolName : EntryState → String
  | .pending => "pending"
  | .dlq => "dlq"
  | .blocked => "blocked"

/-- `check_bounds`: what is stored is within the limits. -/
def checkBounds (s : Store) : Result Unit := do
  [EntryState.pending, .dlq].forM fun pool =>
    let (n, bytes) := s.poolTotals pool
    refuseIf (n > (caps spec pool).1 ∨ bytes > (caps spec pool).2)
      (outboxError .boundExceeded "stored outbox exceeds configured limits")
  refuseIf (s.entries.entries.any fun e =>
      e.2.body.length > spec.maxRecordBytes ∨ e.1 ≤ 0 ∨ e.2.createdMs < 0 ∨ e.2.nextMs < 0)
    (outboxError .codecViolation "invalid outbox record metadata")

/-- `capacity`: there is room for one more of `add` bytes. -/
def capacity (spec : OutboxSpec) (s : Store) (pool : EntryState) (add : ℕ) : Result Unit :=
  let (n, bytes) := s.poolTotals pool
  let name := poolName pool
  refuseIf (n ≥ (caps spec pool).1 ∨ satAdd bytes add > (caps spec pool).2)
    (outboxError .resourceExhausted s!"{name} outbox capacity exhausted; records are retained")

/-- `audit`, which keeps the last two hundred. -/
def addAudit (now : ℕ) (action : String) (entry : Option ℤ) (detail : String) : Store :=
  { s with audit := ({ atMs := asI64 now, action, entry, detail } :: s.audit).take 200 }

def setEntry (id : ℤ) (f : Entry → Entry) : Store := { s with entries := s.entries.modify id f }

def deleteEntry (id : ℤ) : Store := { s with entries := s.entries.erase id }

def count (f : Meta → Meta) : Store := { s with totals := f s.totals }

/-- `dead`: the entry becomes a dead letter, or is blocked while there is no room for it. -/
def dead (spec : OutboxSpec) (s : Store) (id : ℤ) (bytes now : ℕ) (reason : String) : Result Store :=
  match s.capacity spec .dlq bytes with
  | .error e =>
    if e.code ≠ .resourceExhausted then .error e
    else .ok (s.setEntry id fun e => { e with state := .blocked, reason })
  | .ok () =>
    let s := s.setEntry id fun e => { e with state := .dlq, reason }
    let s := s.count fun m => { m with dead := m.dead + 1 }
    .ok (s.addAudit now "dead" (some id) reason)

def keyOf (id : ℤ) : String :=
  let uuid := s.uuid
  s!"{uuid}-{id}"

def parseDigits (digits : List Char) : Option ℕ :=
  if digits = [] ∨ ¬ digits.all Char.isDigit then none
  else some (digits.foldl (fun n c => 10 * n + (c.toNat - '0'.toNat)) 0)

/-- A signed number, as `i64::from_str` reads it. -/
def parseI64 (text : List Char) : Option ℤ :=
  let number := match text with
    | '+' :: digits => (parseDigits digits).map Int.ofNat
    | '-' :: digits => (parseDigits digits).map fun n => -(n : ℤ)
    | digits => (parseDigits digits).map Int.ofNat
  number.filter fun z => fitsI64 z

/-- `parse_id`. -/
def parseId (uuid key : String) : Result ℤ :=
  let id := if uuid.toList.isPrefixOf key.toList then
      match key.toList.drop uuid.toList.length with
      | '-' :: text => (parseI64 text).filter fun z => 0 < z
      | _ => none
    else none
  match id with
  | some id => .ok id
  | none => .error (invalid "entry id does not belong to this outbox")

/-! ### The transactions -/

/-- `enqueue`: the key of the accepted request. -/
def enqueue (hash : Bytes → String) (s : Store) (body : Bytes) (now : ℕ) : Result (ℤ × Store) := do
  refuseIf (body.length > spec.maxRecordBytes ∨ body = [])
    (outboxError .boundExceeded "outbox record exceeds byte limit")
  s.capacity spec .pending body.length
  let id := s.totals.nextId
  refuseIf (id ≤ 0 ∨ id = i64Max) (outboxError .boundExceeded "outbox sequence exhausted")
  let entry : Entry := { state := .pending, body, digest := hash body, createdMs := asI64 now, attempts := 0
                         nextMs := asI64 now, reason := "", replayGeneration := 0 }
  return (id, { s with
    entries := s.entries.insert id entry
    totals := { s.totals with nextId := id + 1, accepted := s.totals.accepted + 1 } })

/-- `DurableRequest`. -/
structure Request where
  /-- The entry; its key is `keyOf`. -/
  id : ℤ
  attempt : ℕ
  body : Bytes

/-- The first entry that is not a dead letter. -/
def head? : Option (ℤ × Entry) := s.entries.entries.find? fun e => e.2.state ≠ .dlq

/-- `next`: the request to send, if one is due. The attempt is recorded before it is sent. -/
def next (spec : OutboxSpec) (hash : Bytes → String) (s : Store) (now : ℕ) (grant : Result Unit) :
    Result (Option Request × Store) :=
  if s.totals.paused then .ok (none, s)
  else match s.head? with
    | none => .ok (none, s)
    | some (id, e) => do
      let created ← readU64 2 e.createdMs
      let next ← readU64 4 e.nextMs
      if e.state = .blocked then return (none, ← s.dead spec id e.body.length now e.reason)
      refuseIf (now < created)
        (invalid "wall clock moved before outbox creation time; refusing to reset retry budgets")
      if e.attempts ≥ spec.maxAttempts ∨ now - created ≥ spec.maxRetryElapsedMs then
        return (none, ← s.dead spec id e.body.length now "retry_budget_exhausted")
      if now < next then return (none, s)
      refuseIf (e.body.length > spec.maxRecordBytes) (outboxError .codecViolation "oversized outbox body")
      grant
      refuseIf (hash e.body ≠ e.digest) (outboxError .codecViolation "outbox body digest mismatch")
      let attempt := e.attempts + 1
      let due := satAdd now (spec.backoff attempt)
      return (some { id, attempt, body := e.body },
        s.setEntry id fun e => { e with attempts := attempt, nextMs := asI64 due })

/-- `DurableOutcome`. -/
inductive Outcome where
  | delivered
  | retry (reason : String) (retryAfterMs : Option ℕ)
  | dead (reason : String)

/-- `settle`: what became of an attempt. -/
def settle (s : Store) (key : String) (attempt : ℕ) (outcome : Outcome) (now : ℕ) : Result Store := do
  let id ← parseId s.uuid key
  match s.entries.get? id with
  | none => .error (db "Query returned no rows")
  | some e =>
    refuseIf (e.state ≠ .pending) (db "Query returned no rows")
    let created ← readU64 2 e.createdMs
    refuseIf (e.attempts ≠ attempt) (invalid "stale outbox completion")
    match outcome with
    | .delivered => return (s.deleteEntry id).count fun m => { m with delivered := m.delivered + 1 }
    | .dead reason => s.dead spec id e.body.length now reason
    | .retry reason retryAfterMs =>
      if attempt ≥ spec.maxAttempts ∨ now - created ≥ spec.maxRetryElapsedMs then
        s.dead spec id e.body.length now "retry_budget_exhausted"
      else
        let delay := max (spec.backoff attempt) (min (retryAfterMs.getD 0) spec.retryMaxMs)
        return s.setEntry id fun e => { e with nextMs := asI64 (satAdd now delay), reason }

/-- `OutboxCommand`. -/
structure Command where
  action : String
  approveUuid : String
  reason : String
  id : Option String
  replayGeneration : Option ℕ

/-- `char::is_control`. -/
def isControl (c : Char) : Bool := c.toNat < 32 ∨ (127 ≤ c.toNat ∧ c.toNat ≤ 159)

/-- `command` on a dead letter: send it again, or remove it. -/
def commandEntry (s : Store) (request : Command) (now : ℕ) : Result (ℤ × Store) :=
  match request.id with
  | none => .error (invalid "an exact DLQ entry id is required")
  | some key => do
    let id ← parseId s.uuid key
    match s.entries.get? id with
    | none => .error (db "Query returned no rows")
    | some e =>
      refuseIf (e.state ≠ .dlq ∨ request.replayGeneration ≠ some e.replayGeneration)
        (invalid "operation requires a current DLQ entry and matching replay_generation")
      if request.action = "replay" then
        refuseIf (e.replayGeneration ≥ 1000) (outboxError .boundExceeded "manual replay generation limit reached")
        s.capacity spec .pending e.body.length
        let s := s.setEntry id fun e =>
          { e with
            state := .pending, attempts := 0, createdMs := asI64 now, nextMs := asI64 now, reason := ""
            replayGeneration := e.replayGeneration + 1 }
        let s := s.count fun m => { m with replayed := m.replayed + 1 }
        return (id, s.addAudit now request.action (some id) request.reason)
      else
        let s := (s.deleteEntry id).count fun m => { m with purged := m.purged + 1 }
        return (id, s.addAudit now request.action (some id) request.reason)

/-- `command`; the entry it was about. -/
def command (s : Store) (request : Command) (now : ℕ) : Result (Option ℤ × Store) := do
  refuseIf (request.reason = "" ∨ request.reason.utf8ByteSize > 256 ∨ request.reason.toList.any isControl)
    (invalid "an audit reason of 1..256 characters is required")
  refuseIf (request.approveUuid ≠ s.uuid) (invalid "approve_uuid must match the current outbox")
  if request.action = "pause" ∨ request.action = "resume" then
    refuseIf (request.id.isSome ∨ request.replayGeneration.isSome) (invalid "pause/resume do not accept an entry")
    let s := s.count fun m => { m with paused := request.action = "pause" }
    return (none, s.addAudit now request.action none request.reason)
  else if request.action = "replay" ∨ request.action = "purge" then
    let (id, s) ← s.commandEntry spec request now
    return (some id, s)
  else .error (invalid "outbox action must be pause, resume, replay or purge")

end Store

end Sparrow.Control
