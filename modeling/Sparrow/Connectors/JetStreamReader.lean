import Sparrow.Connectors.DeliveryLedger

/-!
# The JetStream reader

`Reader::next`, `prepare_pull`, `service_acknowledgements` and `InputRecord::decode_into` of
`sparrow-connectors/src/jetstream/reader.rs`.

## The model

What the client library and the broker do is given with each call: `Arrival` is what waiting
for the next message of a pull ends with, `AckTurn` the confirmations that have come in. The
deadlines are seen in their outcome only. The digest and the payload format are parameters.
-/

namespace Sparrow.Connectors

open Library Model DeliveryLedger

/-- `MAX_MESSAGE_BYTES`. -/
def maxMessageBytes : ℕ := 64 * 1024

/-- `MAX_SUBJECT_BYTES`. -/
def maxSubjectBytes : ℕ := 4096

/-- `SDK_EXPANSION`. -/
def sdkExpansion : ℕ := 32

/-- `ACK_CONCURRENCY`. -/
def ackConcurrency : ℕ := 16

def retryable (code : ErrorCode) (message : String) : SparrowError :=
  { SparrowError.new code message with retryable := true }

/-- `PayloadFormat`: how a payload is read. -/
structure PayloadFormat where
  isJson : Bool
  /-- `decode_scratch`. -/
  decodeScratch : Schema → ℕ → ℕ
  /-- `decode_row`. -/
  decodeRow : Schema → Bytes → Result Row

/-- `ReaderConfig`, with the names the reader was opened under. -/
structure ReaderConfig where
  stream : String
  readerName : String
  pullMessages : ℕ
  pullBytes : ℕ
  replayEnd : Option ℕ
  format : PayloadFormat
  sha256 : Bytes → Bytes

/-- A message as the client library gives it. -/
structure Frame where
  stream : String
  consumer : String
  streamSequence : ℕ
  consumerSequence : ℕ
  subject : Bytes
  payload : Bytes
  length : ℕ
  reply : Option String

/-- `InputRecord`. -/
structure InputRecord where
  sequence : ℕ
  subject : Bytes
  payload : Bytes

/-- What the digest of a message is taken of: the subject, after its length, and the payload. -/
def InputRecord.digested (r : InputRecord) : Bytes := leBytes 8 r.subject.length ++ r.subject ++ r.payload

def Frame.record (f : Frame) : InputRecord :=
  { sequence := f.streamSequence, subject := f.subject, payload := f.payload }

/-- What waiting for the next message ends with. -/
inductive Arrival where
  | unhealthy (e : SparrowError)
  | late
  | ended
  | failed
  | unreadable
  | frame (f : Frame)

/-- `ReaderPoll`. -/
inductive ReaderPoll where
  | record (r : InputRecord)
  | duplicate
  | empty
  | batchEnd
  | full

abbrev Memory := CreditKind → List Pool

/-- `Reader`. -/
structure Reader where
  ledger : DeliveryLedger
  pull : Option Bool
  active : ℕ
  redeliveries : ℕ
  pulls : ℕ

/-- The size of the headers and the payload, if the lengths fit together. -/
def Frame.wireBytes (f : Frame) : Option ℕ :=
  let reply := f.reply.elim 0 fun r => (utf8Bytes r).length
  if f.subject.length ≤ f.length ∧ reply ≤ f.length - f.subject.length ∧
      f.length - f.subject.length - reply ≤ maxMessageBytes then
    some (max (f.length - f.subject.length - reply) 1)
  else none

namespace Reader

variable (config : ReaderConfig) (r : Reader)

/-- A message of a pull: the second half of `next`. -/
def accept (f : Frame) (memory : Memory) : Result (Reader × ReaderPoll) := do
  refuseIf (f.stream ≠ config.stream ∨ f.consumer ≠ config.readerName)
    (.new .codecViolation "JetStream frame belongs to a different stream/attempt")
  refuseIf (∃ last ∈ config.replayEnd, last < f.streamSequence)
    (.new .unsupportedRestore "broker delivered outside approved replay range")
  refuseIf (maxMessageBytes < f.payload.length ∨ maxMessageBytes + 8192 < f.length ∨ maxSubjectBytes < f.subject.length)
    (.new .maxRecordSize "JetStream frame exceeds verified payload/metadata bound")
  match f.wireBytes with
  | none => .error (.new .codecViolation "JetStream wire length metadata invalid")
  | some wireBytes => do
    let retained := f.length * sdkExpansion + 256 * 1024
    refuseIf (usizeMax < retained) (.new .boundExceeded "JetStream retained frame estimate overflow")
    acquire .reservation retained (memory .reservation)
    match f.reply with
    | none => .error (.new .codecViolation "JetStream ACK reply missing")
    | some reply => do
      refuseIf (1024 < (utf8Bytes reply).length) (.new .boundExceeded "JetStream ACK reply metadata too large")
      let id : DeliveryIdentity := {
        streamSequence := f.streamSequence, consumerSequence := f.consumerSequence
        payloadDigest := config.sha256 f.record.digested, wireBytes }
      let (ledger, observation, _) ← r.ledger.observe id reply (memory .retention)
      match observation with
      | .new => return ({ r with ledger }, .record f.record)
      | _ => return ({ r with ledger, redeliveries := satAdd r.redeliveries 1 }, .duplicate)

/-- `next`. -/
def next (arrival : Arrival) (memory : Memory) : Result (Reader × ReaderPoll) :=
  match arrival, r.pull with
  | .unhealthy e, _ => .error e
  | _, none => .ok (r, .full)
  | .late, some _ =>
    .error (retryable .jobFailed "JetStream fetch reply deadline exceeded; refusing to skip uncertain delivery")
  | .ended, some received => .ok ({ r with pull := none }, if received then .batchEnd else .empty)
  | .failed, some _ => .error (retryable .jobFailed "JetStream fetch protocol failed")
  | .unreadable, some _ => .error (.new .codecViolation "JetStream ACK metadata invalid")
  | .frame f, some _ => accept config { r with pull := some true } f memory

/-- `prepare_pull`, where `retention` is the retention credit that is free. -/
def preparePull (retention : ℕ) (fetch : Result Unit) : Result (Reader × Bool) :=
  if r.pull.isSome then .ok (r, true)
  else
    let wanted := min r.ledger.remainingMessages config.pullMessages
    let remaining := config.replayEnd.map fun last => last - r.ledger.published
    if remaining = some 0 then .ok (r, false)
    else
      let count := remaining.elim wanted (min wanted)
      let bytes := min (min r.ledger.remainingBytes config.pullBytes) (retention - count * 1024)
      if count = 0 ∨ bytes < maxMessageBytes + 8192 then
        if r.ledger.pending = 0 then
          .error (.new .resourceExhausted
            "JetStream state leaves no bounded retention space for a pull; cannot make progress with an empty checkpoint")
        else .ok (r, false)
      else do
        fetch
        return ({ r with pull := some false, pulls := satAdd r.pulls 1 }, true)

/-- The confirmations that have come in, and whether the worker still runs. -/
structure AckTurn where
  completed : List (ℕ × Result Unit)
  alive : Bool

/-- The first loop of `service_acknowledgements`. -/
def confirm (r : Reader) : List (ℕ × Result Unit) → Result Reader
  | [] => .ok r
  | (sequence, result) :: rest => do
    result
    let ledger ← r.ledger.ackConfirmed sequence
    confirm { r with ledger, active := r.active - 1 } rest

/-- The second loop of `service_acknowledgements`, with room for `n` more. -/
def enqueue (r : Reader) : ℕ → Reader
  | 0 => r
  | n + 1 =>
    match r.ledger.nextConfirmation with
    | none => r
    | some (ledger, _, _) => enqueue { r with ledger, active := r.active + 1 } n

/-- `service_acknowledgements`. -/
def serviceAcknowledgements (turn : AckTurn) : Result Reader := do
  let r ← r.confirm turn.completed
  refuseIf (!turn.alive) (.new .jobFailed "JetStream ACK worker stopped unexpectedly")
  return r.enqueue (ackConcurrency - r.active)

/-- `mark_committed`. -/
def markCommitted (cut : ℕ) (turn : AckTurn) : Result Reader := do
  let ledger ← r.ledger.committedCheckpoint cut
  serviceAcknowledgements { r with ledger } turn

/-! ### What a call hands out -/

variable {config} {r r' : Reader} {memory : Memory}

/-- The ledger after a call of `next`, by what the call gives. -/
def Polled (config : ReaderConfig) (l : DeliveryLedger) (arrival : Arrival) (l' : DeliveryLedger) : ReaderPoll → Prop
  | .record rec => rec.sequence = l.received + 1 ∧ l'.received = l.received + 1 ∧ ∃ f,
      arrival = .frame f ∧ rec = f.record ∧ f.subject.length ≤ maxSubjectBytes ∧
      ∀ {k e'}, l'.entries.get? k = some e' →
        (k = rec.sequence ∧ e'.identity.payloadDigest = config.sha256 f.record.digested) ∨
        ∃ e, l.entries.get? k = some e ∧ e.identity = e'.identity
  | .duplicate => l'.received = l.received ∧ Keeps l l' ∧ ∃ f, arrival = .frame f ∧
      f.subject.length ≤ maxSubjectBytes ∧ (f.streamSequence ≤ l.committed ∨
        ∃ e, l.entries.get? f.streamSequence = some e ∧ e.identity.payloadDigest = config.sha256 f.record.digested)
  | _ => l' = l

theorem accept_ok (hr : r.ledger.Sound) {f : Frame} : (accept config r f memory).Ensures fun (r', poll) =>
    r'.ledger.Sound ∧ r'.ledger.published = r.ledger.published ∧ r'.ledger.committed = r.ledger.committed ∧
      Polled config r.ledger (.frame f) r'.ledger poll := by
  refine .bind fun _ _ => .bind fun _ _ => .bind fun _ hsi => ?_
  have hsu : f.subject.length ≤ maxSubjectBytes := by
    have := refuseIf_eq_ok.mp hsi
    simp only [not_or, not_lt] at this
    exact this.2.2
  split
  · exact .error
  refine .bind fun _ _ => .bind fun _ _ => ?_
  split
  · exact .error
  refine .bind fun _ _ => .bind fun (l', obs, retired) hob => ?_
  obtain ⟨hs, hp, hc, ho⟩ := observe_ok hr hob
  cases obs with
  | new =>
    obtain ⟨hse, hre, hen⟩ := ho
    refine .ok ⟨hs, hp, hc, hse, hre, f, rfl, rfl, hsu, fun he => ?_⟩
    exact (hen he).imp_left fun ⟨hk, hid⟩ => ⟨hk, congrArg DeliveryIdentity.payloadDigest hid⟩
  | pendingDuplicate =>
    obtain ⟨hre, hke, he⟩ := ho
    exact .ok ⟨hs, hp, hc, hre, hke, f, rfl, hsu, .inr he⟩
  | committedDuplicate =>
    obtain ⟨hre, hke, hle⟩ := ho
    exact .ok ⟨hs, hp, hc, hre, hke, f, rfl, hsu, .inl hle⟩

/-- **A call hands out the next message of the stream, or none.** -/
theorem next_ok (hr : r.ledger.Sound) {arrival : Arrival} : (next config r arrival memory).Ensures fun (r', poll) =>
    r'.ledger.Sound ∧ r'.ledger.published = r.ledger.published ∧ r'.ledger.committed = r.ledger.committed ∧
      Polled config r.ledger arrival r'.ledger poll := by
  unfold next
  split
  · exact .error
  · exact .ok ⟨hr, rfl, rfl, rfl⟩
  · exact .error
  · refine .ok ⟨hr, rfl, rfl, ?_⟩
    split_ifs <;> rfl
  · exact .error
  · exact .error
  · exact accept_ok (r := { r with pull := some true }) hr

theorem preparePull_ok {retention : ℕ} {fetch : Result Unit} :
    (preparePull config r retention fetch).Ensures (·.1.ledger = r.ledger) := by
  unfold preparePull
  dsimp only
  split_ifs <;> first
    | exact .ok rfl
    | exact .error
    | exact .bind fun _ _ => .ok rfl

def Serviced (l l' : DeliveryLedger) : Prop :=
  l'.Sound ∧ l'.published = l.published ∧ l'.received = l.received ∧ Keeps l l'

theorem Serviced.refl {l : DeliveryLedger} (hl : l.Sound) : Serviced l l := ⟨hl, rfl, rfl, Keeps.refl _⟩

theorem Serviced.trans {l l' l'' : DeliveryLedger} (h : Serviced l l') (h' : Serviced l' l'') : Serviced l l'' :=
  ⟨h'.1, h'.2.1.trans h.2.1, h'.2.2.1.trans h.2.2.1, Keeps.trans h.2.2.2 h'.2.2.2⟩

theorem confirm_ok : ∀ {completed : List (ℕ × Result Unit)} {r : Reader}, r.ledger.Sound →
    (r.confirm completed).Ensures (Serviced r.ledger ·.ledger)
  | [], _, hr => .ok (.refl hr)
  | _ :: _, _, hr => .bind fun _ _ => .bind fun _ hl _ h =>
      have ha : Serviced _ _ := ackConfirmed_ok hr hl
      ha.trans (confirm_ok ha.1 h)

theorem enqueue_ok : ∀ (n : ℕ) {r : Reader}, r.ledger.Sound → Serviced r.ledger (r.enqueue n).ledger
  | 0, r, hr => .refl hr
  | n + 1, r, hr => by
    unfold enqueue
    split
    · exact .refl hr
    case h_2 l _ _ hn =>
      have hc : Serviced _ _ := nextConfirmation_ok hr hn
      exact hc.trans (enqueue_ok n (r := { r with ledger := l, active := r.active + 1 }) hc.1)

theorem serviceAcknowledgements_ok (hr : r.ledger.Sound) {turn : AckTurn} :
    (r.serviceAcknowledgements turn).Ensures (Serviced r.ledger ·.ledger) := by
  refine .bind fun r₁ hco => .bind fun _ _ => .ok ?_
  have hc := confirm_ok hr hco
  exact hc.trans (enqueue_ok (ackConcurrency - r₁.active) hc.1)

theorem markCommitted_ok (hr : r.ledger.Sound) {cut : ℕ} {turn : AckTurn} :
    (r.markCommitted cut turn).Ensures (Serviced r.ledger ·.ledger) := by
  refine .bind fun l hcu r' h => ?_
  have hc : Serviced _ _ := committedCheckpoint_ok hr hcu
  exact hc.trans (serviceAcknowledgements_ok (r := { r with ledger := l }) hc.1 h)

end Reader

/-! ### Decoding -/

namespace InputRecord

variable (format : PayloadFormat) (schema : Schema)

/-- The memory that decoding is admitted with; none if it overflows. -/
def estimate (r : InputRecord) : Option ℕ :=
  let json := r.payload.length * 64 + schema.fields.length * (scalarSize * 2) + 4096
  if usizeMax < json then none
  else some (if format.isJson then json else format.decodeScratch schema r.payload.length)

/-- `decode_into`: the builder, and whether the row was added. -/
def decodeInto (r : InputRecord) (builder : RowBatchBuilder) (byteLimit : ℕ) (scratch : List Pool)
    (credit : BuilderCredit) :
    Result (RowBatchBuilder × Bool) :=
  match r.estimate format schema with
  | none => .error (.new .boundExceeded "JetStream decode scratch overflow")
  | some estimate => do
    acquire .reservation estimate scratch
    let row ← format.decodeRow schema r.payload
    let resident := row.residentBytes
    if 0 < builder.rows.length ∧ byteLimit < satAdd builder.currentBytes (max resident row.trackedBytes) then
      return (builder, false)
    else do
      let builder ← builder.pushAccounted row resident credit
      return (builder, true)

/-- The row of a record, if it decodes alone: it is read, it fits the schema, and it fits an empty batch. -/
def row? (r : InputRecord) (byteLimit : ℕ) : Option Row :=
  match r.estimate format schema with
  | none => none
  | some estimate =>
    if estimate = 0 then none
    else match format.decodeRow schema r.payload with
      | .error _ => none
      | .ok row =>
        if checkRow schema row = .ok () ∧ satAdd 0 (max row.trackedBytes row.residentBytes) ≤
          byteLimit then some row else none

variable {format schema} {r : InputRecord} {builder builder' : RowBatchBuilder} {byteLimit : ℕ} {scratch : List Pool}
  {credit : BuilderCredit}

/-- A builder in use: of the schema and the limit, and not full. -/
structure Open (schema : Schema) (byteLimit : ℕ) (builder : RowBatchBuilder) : Prop where
  schema_eq : builder.schema = schema
  maxBytes_eq : builder.maxBytes = byteLimit
  rows_lt : builder.rows.length < builder.maxRows
  empty : builder.rows = [] → builder.currentBytes = 0

/-- **A row is added as the record decodes alone.** -/
theorem decodeInto_added (ho : Open schema byteLimit builder)
    (h : r.decodeInto format schema builder byteLimit scratch credit = .ok (builder', true)) :
    ∃ row, r.row? format schema byteLimit = some row ∧ builder' = { builder with
      rows := builder.rows ++ [row], currentBytes := builder.charged row row.residentBytes } := by
  unfold decodeInto at h
  split at h
  · cases h
  case h_2 estimate he =>
    obtain ⟨_, hs, h⟩ := bind_eq_ok.mp h
    obtain ⟨row, hr, h⟩ := bind_eq_ok.mp h
    dsimp only at h
    split_ifs at h
    · exact absurd (congrArg Prod.snd (Except.ok.inj h)) Bool.false_ne_true
    obtain ⟨b, hp, h⟩ := bind_eq_ok.mp h
    obtain rfl : b = builder' := by simpa using Except.ok.inj h
    obtain ⟨hc, hch, rfl⟩ := RowBatchBuilder.pushAccounted_ok hp
    refine ⟨row, ?_, rfl⟩
    have hz := acquire_ne_zero hs
    have hf : satAdd 0 (max row.trackedBytes row.residentBytes) ≤ byteLimit := by
      rw [ho.maxBytes_eq] at hch
      exact (min_le_min_right _ (Nat.add_le_add_right (Nat.zero_le _) _)).trans hch
    have hc : checkRow schema row = .ok () := ho.schema_eq ▸ hc
    unfold row?
    rw [he]
    dsimp only
    rw [if_neg hz, hr]
    exact if_pos ⟨hc, hf⟩

/-- **A record that is refused for its own sake does not decode alone.** -/
theorem decodeInto_poison (ho : Open schema byteLimit builder) {e : SparrowError}
    (h : r.decodeInto format schema builder byteLimit scratch credit = .error e) (he : e.code ≠ .resourceExhausted) :
    r.row? format schema byteLimit = none := by
  unfold decodeInto at h
  unfold row?
  split at h
  · rfl
  case h_2 estimate _ =>
    split_ifs with hz
    · rfl
    obtain hs | ⟨_, -, h⟩ := Result.bind_eq_error.mp h
    · exact absurd (acquire_error hz hs) he
    obtain hr | ⟨row, hr, h⟩ := Result.bind_eq_error.mp h
    · simp only [hr]
    simp only [hr]
    dsimp only at h
    split_ifs at h with hd
    · cases h
    obtain hp | ⟨_, -, h⟩ := Result.bind_eq_error.mp h
    · refine if_neg fun ⟨hc, _⟩ => ?_
      obtain hco | hc' | hro | hb := RowBatchBuilder.pushAccounted_error hp
      · exact he hco
      · exact hc' (ho.schema_eq ▸ hc)
      · exact absurd ho.rows_lt (not_lt.mpr hro)
      · rw [ho.maxBytes_eq, RowBatchBuilder.charged] at hb
        by_cases hem : builder.rows = []
        · rw [ho.empty hem] at hb
          omega
        · exact hd ⟨List.length_pos_iff.mpr hem, max_comm row.residentBytes _ ▸ hb⟩
    · cases h

end InputRecord

end Sparrow.Connectors
