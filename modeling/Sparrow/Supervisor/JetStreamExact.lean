import Sparrow.Library.Machine
import Sparrow.Supervisor.JetStreamSource

/-!
# The JetStream source hands on every record once
-/

namespace Sparrow.Supervisor

open Library Model Connectors DeliveryLedger List

def ActorConfig.row? (config : ActorConfig) (r : InputRecord) : Option Row :=
  r.row? config.reader.format config.schema config.rowLimit

def rowsOf (sent : List IngressEvent) : List Row :=
  sent.flatMap fun
    | .batch rows => rows
    | .checkpointBarrier _ => []

@[simp] theorem rowsOf_append (a b : List IngressEvent) :
    rowsOf (a ++ b) = rowsOf a ++ rowsOf b := flatMap_append

@[simp] theorem rowsOf_batch (rows : List Row) : rowsOf [.batch rows] = rows := by simp [rowsOf]

@[simp] theorem rowsOf_barrier (id : ℕ) : rowsOf [.checkpointBarrier id] = [] := rfl

/-- The records have the sequences after `cut`, one after the other. -/
def Numbered (cut : ℕ) (records : List InputRecord) : Prop :=
  ∀ i r, records[i]? = some r → r.sequence = cut + i + 1

variable {records : List InputRecord} {r : InputRecord}

theorem Numbered.concat {cut : ℕ} (h : Numbered cut records)
    (hr : r.sequence = cut + records.length + 1) : Numbered cut (records ++ [r]) := by
  intro i r' hi
  rw [getElem?_append] at hi
  split_ifs at hi with hlt
  · exact h i r' hi
  · obtain ⟨hz, rfl⟩ : i - records.length = 0 ∧ r = r' := by
      cases hs : i - records.length with
      | zero => exact ⟨rfl, by simpa [hs] using hi⟩
      | succ n => simp [hs] at hi
    omega

/-! ### Reading -/

/-- What holds of the reader and of what it has handed out. -/
structure Reading (config : ActorConfig) (cut : ℕ) (w : World) : Prop where
  sound : w.actor.reader.ledger.Sound
  numbered : Numbered cut w.admitted
  received_eq : w.actor.reader.ledger.received = cut + w.admitted.length
  known : ∀ {k e}, w.actor.reader.ledger.entries.get? k = some e →
    ∃ r ∈ w.admitted, r.sequence = k ∧ e.identity.payloadDigest = config.reader.sha256 r.digested
  echo : ∀ f ∈ w.repeats, ∃ r ∈ w.admitted, r.sequence = f.streamSequence ∧
    config.reader.sha256 r.digested = config.reader.sha256 f.record.digested
  short : (∀ r ∈ w.admitted, r.subject.length ≤ maxSubjectBytes) ∧ ∀ f ∈ w.repeats,
    f.subject.length ≤ maxSubjectBytes

variable {config : ActorConfig} {cut : ℕ} {w w' : World} {reader : Reader}

theorem Reading.withReader (hw : Reading config cut w) (hso : reader.ledger.Sound)
    (hrec : reader.ledger.received = w.actor.reader.ledger.received)
    (hk : Keeps w.actor.reader.ledger reader.ledger)
    (hac : w'.actor.reader = reader) (ha : w'.admitted = w.admitted) (hre : w'.repeats = w.repeats) :
    Reading config cut w' where
  sound := hac ▸ hso
  numbered := ha ▸ hw.numbered
  received_eq := by rw [hac, hrec, ha, hw.received_eq]
  known {k e} he := by
    rw [hac] at he
    obtain ⟨e₀, he₀, hid⟩ := hk he
    obtain ⟨r, hr, hs, hd⟩ := hw.known he₀
    exact ⟨r, ha ▸ hr, hs, hid ▸ hd⟩
  echo := by rw [ha, hre]; exact hw.echo
  short := by rw [ha, hre]; exact hw.short

theorem Reading.same (hw : Reading config cut w) (ha : w'.actor.reader = w.actor.reader)
    (had : w'.admitted = w.admitted) (hr : w'.repeats = w.repeats) : Reading config cut w' :=
  hw.withReader hw.sound rfl (Keeps.refl _) ha had hr

def handedOut : ReaderPoll → List InputRecord
  | .record r => [r]
  | _ => []

/-- What a step of the reader leaves alone. -/
structure OnlyReads (w w' : World) : Prop where
  actor : w'.actor = { w.actor with reader := w'.actor.reader }
  published : w'.actor.reader.ledger.published = w.actor.reader.ledger.published
  dlq : w'.dlq = w.dlq
  sent : w'.sent = w.sent
  cuts : w'.cuts = w.cuts

theorem Reading.handOut (hw : Reading config cut w) {f : Frame} (hso : reader.ledger.Sound)
    (hs : f.streamSequence = w.actor.reader.ledger.received + 1)
    (hre : reader.ledger.received = w.actor.reader.ledger.received + 1)
    (hsh : f.subject.length ≤ maxSubjectBytes)
    (hen : ∀ {k e'}, reader.ledger.entries.get? k = some e' →
      (k = f.streamSequence ∧ e'.identity.payloadDigest = config.reader.sha256 f.record.digested) ∨
        ∃ e, w.actor.reader.ledger.entries.get? k = some e ∧ e.identity = e'.identity) :
    Reading config cut { w with actor := { w.actor with reader }, admitted := w.admitted ++ [f.record] } where
  sound := hso
  numbered := hw.numbered.concat (hs.trans (by rw [hw.received_eq]))
  received_eq := by
    rw [length_append, length_singleton]
    exact hre.trans (by rw [hw.received_eq, Nat.add_assoc])
  known {k e} he := by
    obtain ⟨hk, hd⟩ | ⟨e₀, he₀, hid⟩ := hen he
    · exact ⟨f.record, mem_append_right _ (mem_singleton_self _), hk.symm, hd⟩
    · obtain ⟨r, hr, hs, hd⟩ := hw.known he₀
      exact ⟨r, mem_append_left _ hr, hs, hid ▸ hd⟩
  echo g hg := by
    obtain ⟨r, hr, h⟩ := hw.echo g hg
    exact ⟨r, mem_append_left _ hr, h⟩
  short := ⟨forall_mem_concat.mpr ⟨hw.short.1, hsh⟩, hw.short.2⟩

variable {arrival : Arrival} {memory : Memory} {next : InputRecord} {t : Turn} {ready : Bool}

/-- **A poll hands out the next record of the stream, or none.** -/
theorem poll_ok (hw : Reading config cut w) : (w.poll config arrival memory).Ensures fun (w', p) =>
    Reading config cut w' ∧ OnlyReads w w' ∧ w'.admitted = w.admitted ++ handedOut p := by
  refine .bind fun (reader, p) hn => ?_
  obtain ⟨hso, hp, -, hpo⟩ := Reader.next_ok hw.sound hn
  have hq : reader.ledger = w.actor.reader.ledger →
      Reading config cut { w with actor := { w.actor with reader } } := fun hsa =>
    hw.withReader hso (congrArg _ hsa) (hsa ▸ Keeps.refl _) rfl rfl rfl
  cases p with
  | record r =>
    obtain ⟨hs, hre, f, rfl, rfl, hsh, hen⟩ := hpo
    exact .ok ⟨hw.handOut hso hs hre hsh hen, ⟨rfl, hp, rfl, rfl, rfl⟩, rfl⟩
  | duplicate =>
    obtain ⟨hre, hk, f, rfl, hsh, hrep⟩ := hpo
    have hq : Reading config cut { w with actor := { w.actor with reader } } :=
      hw.withReader hso hre hk rfl rfl rfl
    dsimp only
    split_ifs with hpe
    · refine .ok ⟨{ hq with echo := ?_, short := ?_ }, ⟨rfl, hp, rfl, rfl, rfl⟩, (append_nil _).symm⟩
      · refine forall_mem_concat.mpr ⟨hw.echo, ?_⟩
        obtain hle | ⟨e, he, hd⟩ := hrep
        · exact absurd hle (not_le.mpr hpe)
        · obtain ⟨r, hr, hs, hkn⟩ := hw.known he
          exact ⟨r, hr, hs, hkn.symm.trans hd⟩
      · exact ⟨hw.short.1, forall_mem_concat.mpr ⟨hw.short.2, hsh⟩⟩
    · exact .ok ⟨hq, ⟨rfl, hp, rfl, rfl, rfl⟩, (append_nil _).symm⟩
  | empty | batchEnd | full =>
    exact .ok ⟨hq hpo, ⟨rfl, hp, rfl, rfl, rfl⟩, (append_nil _).symm⟩

/-! ### What is handed on -/

/-- The records that do not decode are stored, under their own sequence and payload. -/
def Stored (config : ActorConfig) (dlq : Option InputDlq) (records : List InputRecord) : Prop :=
  ∀ r ∈ records, config.row? r = none → ∃ q ∈ dlq, ∃ p ∈ q.records, p.position = r.sequence ∧
    p.body = r.payload

/-- What was handed on, in an attempt that started with `ingested` rows: the records of `done`. -/
structure Accounted (config : ActorConfig) (cut ingested : ℕ) (w : World)
    (done held : List InputRecord) : Prop where
  admitted_eq : w.admitted = done ++ held
  published_eq : w.actor.reader.ledger.published = cut + done.length
  rows_eq : rowsOf w.sent = done.filterMap config.row?
  stored : Stored config w.dlq done
  ingested_eq : w.actor.ingested = ingested + (rowsOf w.sent).length
  barriers : ∀ pre id post, w.sent = pre ++ .checkpointBarrier id :: post → ∃ c, (id, c) ∈ w.cuts ∧ cut ≤ c ∧
    c ≤ w.actor.reader.ledger.published ∧ rowsOf pre = (done.take (c - cut)).filterMap config.row?
  ids : (w.cuts.map Prod.fst).Pairwise (· < ·) ∧ ∀ c ∈ w.cuts, c.1 < w.actor.nextCheckpoint

variable {ingested : ℕ} {done held fresh : List InputRecord}

theorem Accounted.step (h : Accounted config cut ingested w done held) {he' : List InputRecord}
    (ha : w'.admitted = done ++ he')
    (hp : w'.actor.reader.ledger.published = w.actor.reader.ledger.published) (hs : w'.sent = w.sent)
    (hc : w'.cuts = w.cuts) (hst : Stored config w'.dlq done) (hi : w'.actor.ingested = w.actor.ingested)
    (hn : w'.actor.nextCheckpoint = w.actor.nextCheckpoint) : Accounted config cut ingested w' done he' where
  admitted_eq := ha
  published_eq := hp.trans h.published_eq
  rows_eq := hs ▸ h.rows_eq
  stored := hst
  ingested_eq := by rw [hi, hs, h.ingested_eq]
  barriers := by rw [hs, hc, hp]; exact h.barriers
  ids := by rw [hc, hn]; exact h.ids

theorem Accounted.onlyReads (h : Accounted config cut ingested w done held) (hr : OnlyReads w w')
    {more : List InputRecord} (ha : w'.admitted = w.admitted ++ more) :
    Accounted config cut ingested w' done (held ++ more) :=
  h.step (by rw [ha, h.admitted_eq, append_assoc]) hr.published hr.sent hr.cuts
    (hr.dlq ▸ h.stored) (by rw [hr.actor]) (by rw [hr.actor])

theorem capture_ok {q : InputDlq} {sha256 : Bytes → Bytes} {identity : String}
    {position recordIndex : ℕ} {payload : Bytes} {code : ErrorCode} {db : Result Unit} :
    (q.capture sha256 identity position recordIndex payload code db).Ensures fun q' =>
      (∀ p ∈ q.records, p ∈ q'.records) ∧ ∃ p ∈ q'.records, p.position = position ∧ p.body = payload := by
  refine .bind fun _ _ => .bind fun q₁ hs => .bind fun _ _ => ?_
  replace hs := after_check hs
  cases hs
  split
  case h_1 old hf =>
    refine .bind fun _ _ => .bind fun _ hb => .ok ⟨fun _ hp => hp, old, mem_of_find?_eq_some hf, ?_⟩
    exact ⟨by simpa using find?_some hf, not_not.mp (refuseIf_eq_ok.mp hb)⟩
  case h_2 =>
    refine .bind fun _ _ => .ok ⟨fun _ hp => mem_append_left _ hp, ?_⟩
    exact ⟨_, mem_append_right _ (mem_singleton_self _), rfl, rfl⟩

/-! ### One batch -/

/-- The state of the loop: `fresh` is decoded or stored since the batch was begun. -/
structure Drained (config : ActorConfig) (cut ingested : ℕ) (done fresh : List InputRecord)
    (w : World) (b : Batch) : Prop where
  reading : Reading config cut w
  accounted : Accounted config cut ingested w done (fresh ++ (b.record.toList ++ w.actor.deferred.toList))
  stored : Stored config w.dlq fresh
  rows_eq : b.builder.rows = fresh.filterMap config.row?
  schema_eq : b.builder.schema = config.schema
  maxBytes_eq : b.builder.maxBytes = config.rowLimit
  maxRows_eq : b.builder.maxRows = config.batchRows
  empty : b.builder.rows = [] → b.builder.currentBytes = 0
  last_eq : b.lastSequence = cut + (done ++ fresh).length
  one : b.record = none ∨ w.actor.deferred = none

/-- The loop goes on: nothing is deferred, and there is room. -/
def Going (config : ActorConfig) (w : World) (b : Batch) : Prop :=
  w.actor.deferred = none ∧ b.builder.rows.length < config.batchRows

variable {b b' : Batch} {q : Quantum} {stop : Bool}

section

variable (h : Drained config cut ingested done fresh w b)

include h

theorem Drained.sequence (hrecord : b.record = some next) :
    next.sequence = cut + (done ++ (fresh ++ [next])).length := by
  have ha := h.accounted.admitted_eq
  rw [hrecord, Option.toList_some, ← append_assoc, singleton_append] at ha
  have := h.reading.numbered (done ++ fresh).length next (by rw [ha]; simp)
  simp only [length_append, length_singleton] at this ⊢
  omega

theorem Drained.read (hrecord : b.record = none)
    (hdeferred : w.actor.deferred = none) {p : ReaderPoll} (hpo : w.poll config arrival memory = .ok (w', p))
    (record : Option InputRecord) (hp : handedOut p = record.toList) :
    w'.actor.deferred = none ∧ Drained config cut ingested done fresh w' { b with record } := by
  obtain ⟨hre, hr, ha⟩ := poll_ok h.reading hpo
  have hn : w'.actor.deferred = none := by rw [hr.actor]; exact hdeferred
  refine ⟨hn, { h with
    reading := hre, accounted := ?_, stored := hr.dlq ▸ h.stored, one := .inr hn }⟩
  have := h.accounted.onlyReads hr ha
  rw [hrecord, hdeferred, hp] at this
  simpa [hn] using this

theorem refill_ok (hrecord : b.record = none)
    (hdeferred : w.actor.deferred = none) : (w.refill config b q).Ensures fun (w', b', stop) =>
    Drained config cut ingested done fresh w' b' ∧ (stop = false → Going config w' b') := by
  unfold World.refill
  split_ifs with hr
  · exact .ok ⟨h, nofun⟩
  split
  · exact .ok ⟨h, nofun⟩
  refine .bind fun (w₁, p) hpo => ?_
  have hs : { b with record := none } = b := by rw [← hrecord]
  have hq (hp : handedOut p = []) := hs ▸ h.read hrecord hdeferred hpo none hp
  cases p with
  | record r =>
    obtain ⟨hn, hre⟩ := h.read hrecord hdeferred hpo (some r) rfl
    exact .ok ⟨hre, fun _ => ⟨hn, not_le.mp hr⟩⟩
  | duplicate => exact .ok ⟨(hq rfl).2, fun _ => ⟨(hq rfl).1, not_le.mp hr⟩⟩
  | empty | batchEnd | full => exact .ok ⟨(hq rfl).2, nofun⟩

theorem Drained.decoded (hrecord : b.record = some next)
    (hdeferred : w.actor.deferred = none) {builder : RowBatchBuilder} {row : Row}
    (hr : config.row? next = some row)
    {bytes : ℕ} (hb : builder = { b.builder with rows := b.builder.rows ++ [row], currentBytes := bytes }) :
    Drained config cut ingested done (fresh ++ [next]) w
      { builder, record := none, lastSequence := next.sequence } where
  reading := h.reading
  accounted := by simpa [hrecord, hdeferred] using h.accounted
  stored := forall_mem_concat.mpr ⟨h.stored, fun hno => by rw [hr] at hno; cases hno⟩
  rows_eq := by rw [hb, filterMap_append, ← h.rows_eq]; simp [hr]
  schema_eq := by rw [hb]; exact h.schema_eq
  maxBytes_eq := by rw [hb]; exact h.maxBytes_eq
  maxRows_eq := by rw [hb]; exact h.maxRows_eq
  empty hn := by rw [hb] at hn; exact absurd hn (append_ne_nil_of_right_ne_nil _ (cons_ne_nil _ _))
  last_eq := h.sequence hrecord
  one := .inl rfl

theorem Drained.defer (hrecord : b.record = some next) (hdeferred : w.actor.deferred = none) (full : Bool) :
    Drained config cut ingested done fresh
      { w with actor := { w.actor with deferred := some next, quarantineFull := full } }
        { b with record := none } :=
  { h with
    reading := h.reading.same rfl rfl rfl
    accounted := by
      have := h.accounted
      rw [hrecord, hdeferred] at this
      exact this.step (by simpa using this.admitted_eq) rfl rfl rfl this.stored rfl rfl
    one := .inl rfl }

end

theorem Stored.mono {dlq dlq' : Option InputDlq} (h : Stored config dlq records)
    (hd : ∀ q ∈ dlq, ∃ q' ∈ dlq', ∀ p ∈ q.records, p ∈ q'.records) : Stored config dlq' records := by
  intro r hr hn
  obtain ⟨q, hq, p, hp, heq⟩ := h r hr hn
  obtain ⟨q', hq', hs⟩ := hd q hq
  exact ⟨q', hq', p, hs p hp, heq⟩

section

variable (h : Drained config cut ingested done fresh w b) (hrecord : b.record = some next)
  (hdeferred : w.actor.deferred = none)

include h hrecord hdeferred

theorem Drained.captured (hrow : config.row? next = none) {queue queue' : InputDlq}
    (hdlq : w.dlq = some queue) (hsub : ∀ p ∈ queue.records, p ∈ queue'.records)
    (hnew : ∃ p ∈ queue'.records, p.position = next.sequence ∧ p.body = next.payload) :
    Drained config cut ingested done (fresh ++ [next])
      { w with dlq := some queue', actor := { w.actor with quarantineFull := false } }
      { b with record := none, lastSequence := next.sequence } := by
  have hg : ∀ q ∈ w.dlq, ∃ q' ∈ some queue', ∀ p ∈ q.records, p ∈ q'.records := by
    rw [hdlq]
    rintro q hq
    obtain rfl := Option.mem_some_iff.mp hq
    exact ⟨queue', rfl, hsub⟩
  exact {
    reading := h.reading.same rfl rfl rfl
    accounted := by
      have := h.accounted
      rw [hrecord, hdeferred] at this
      exact this.step (by simpa [hdeferred] using this.admitted_eq) rfl rfl rfl (this.stored.mono hg) rfl rfl
    stored := forall_mem_concat.mpr ⟨h.stored.mono hg, fun _ => ⟨queue', rfl, hnew⟩⟩
    rows_eq := by rw [filterMap_append, ← h.rows_eq]; simp [hrow]
    schema_eq := h.schema_eq
    maxBytes_eq := h.maxBytes_eq
    maxRows_eq := h.maxRows_eq
    empty := h.empty
    last_eq := h.sequence hrecord
    one := .inl rfl }

theorem poison_ok {e : SparrowError} (hr : e.code ≠ .resourceExhausted → config.row? next = none) :
    (w.poison config { b with record := none } next e q).Ensures fun (w', b', stop) =>
      stop = true ∧ ∃ fresh', Drained config cut ingested done fresh' w' b' := by
  unfold World.poison
  split_ifs with hc
  case neg => exact .error
  split
  · exact .error
  case h_2 queue hd =>
    refine .bind fun _ _ => ?_
    split
    case h_1 error _ =>
      split_ifs
      · exact .ok ⟨rfl, fresh, h.defer hrecord hdeferred true⟩
      · exact .error
    case h_2 queue' hca =>
      obtain ⟨hs, hn⟩ := capture_ok hca
      refine .ok ⟨rfl, fresh ++ [next], h.captured hrecord hdeferred (hr fun he => ?_) hd hs hn⟩
      rw [he] at hc
      exact absurd hc (by decide)

end

/-- **One pass decodes, stores or defers the record it has, and reads at most one.** -/
theorem pass_ok (h : Drained config cut ingested done fresh w b) (hg : Going config w b) :
    (w.pass config b q).Ensures fun (w', b', stop) =>
      (∃ fresh', Drained config cut ingested done fresh' w' b') ∧ (stop = false → Going config w' b') := by
  unfold World.pass
  split
  case h_1 hrecord =>
    intro _ hp
    obtain ⟨hd, hs⟩ := refill_ok h hrecord hg.1 hp
    exact ⟨⟨fresh, hd⟩, hs⟩
  case h_2 next hrecord =>
    have ho : InputRecord.Open config.schema config.rowLimit b.builder :=
      ⟨h.schema_eq, h.maxBytes_eq, h.maxRows_eq ▸ hg.2, h.empty⟩
    dsimp only
    split
    case h_1 builder hde =>
      intro _ hp
      obtain ⟨row, hr, hb⟩ := InputRecord.decodeInto_added ho hde
      obtain ⟨hd, hs⟩ := refill_ok (h.decoded hrecord hg.1 hr hb) rfl hg.1 hp
      exact ⟨⟨fresh ++ [next], hd⟩, hs⟩
    case h_2 => exact .ok ⟨⟨fresh, h.defer hrecord hg.1 w.actor.quarantineFull⟩, nofun⟩
    case h_3 e hde =>
      rintro ⟨w', b', stop⟩ hp
      obtain ⟨rfl, hd⟩ := poison_ok h hrecord hg.1 (InputRecord.decodeInto_poison ho hde) hp
      exact ⟨hd, nofun⟩

/-- **So does the loop**, by induction on the passes that are left. -/
theorem drain_ok {quanta : ℕ → Quantum} : ∀ {n : ℕ} {w : World} {b : Batch} {fresh : List InputRecord},
    Drained config cut ingested done fresh w b → Going config w b →
    (World.drain config quanta n w b).Ensures fun (w', b') =>
      ∃ fresh', Drained config cut ingested done fresh' w' b'
  | 0, w, b, fresh, h, _ => .ok ⟨fresh, h⟩
  | n + 1, w, b, fresh, h, hg => by
    refine .bind fun (w₁, b₁, stop) hp => ?_
    obtain ⟨⟨fresh₁, h₁⟩, hs⟩ := pass_ok h hg hp
    cases stop with
    | true => exact .ok ⟨fresh₁, h₁⟩
    | false => exact drain_ok h₁ (hs rfl)

/-! ### Handing on -/

theorem publishAll_ok : ∀ {n : ℕ} {l : DeliveryLedger}, l.Sound → l.published + n ≤ l.received →
    Result.Ensures ((List.range' (l.published + 1) n).foldlM publish l) fun l' =>
      l'.Sound ∧ l'.published = l.published + n ∧ l'.received = l.received ∧ Keeps l l'
  | 0, l, hl, _ => .ok ⟨hl, rfl, rfl, Keeps.refl _⟩
  | n + 1, l, hl, hle => by
    refine .bind fun l₁ hp l' h => ?_
    obtain ⟨l₂, hp', hs, hpu, hr, -, hk⟩ := publish_next hl (by omega)
    cases hp.symm.trans hp'
    rw [← hpu] at h
    obtain ⟨hs', hpu', hr', hk'⟩ := publishAll_ok hs (by omega) h
    exact ⟨hs', by omega, hr'.trans hr, hk.trans hk'⟩

theorem send_ok {rows : List Row} {outcome : Result Unit} : (w.send rows outcome).Ensures fun w' =>
    ∃ sent, w' = { w with sent } ∧ rowsOf sent = rowsOf w.sent ++ rows ∧
      ∀ pre id post, sent = pre ++ .checkpointBarrier id :: post →
        ∃ post', w.sent = pre ++ .checkpointBarrier id :: post' := by
  unfold World.send
  split_ifs with hr
  · exact .ok ⟨w.sent, rfl, by rw [hr, append_nil], fun _ _ post hs => ⟨post, hs⟩⟩
  · refine .bind fun _ _ => .ok ⟨_, rfl, by rw [rowsOf_append, rowsOf_batch], fun pre id post hs => ?_⟩
    obtain ⟨-, hb⟩ | hbe := append_singleton_split hs
    · cases hb
    · exact hbe

/-- What holds at the top of the loop of `run`. -/
def AtTop (config : ActorConfig) (cut ingested : ℕ) (w : World) : Prop :=
  Reading config cut w ∧ ∃ done, Accounted config cut ingested w done w.actor.deferred.toList

variable {first : InputRecord}

theorem Drained.start {builder : RowBatchBuilder} {cap : ℕ} (hr : Reading config cut w)
    (ha : Accounted config cut ingested w done [first]) (hdeferred : w.actor.deferred = none)
    (hn : RowBatchBuilder.new config.schema config.batchRows config.rowLimit cap = .ok builder) :
    Drained config cut ingested done [] w { builder, record := some first, lastSequence := first.sequence - 1 } ∧
      Going config w { builder, record := some first, lastSequence := first.sequence - 1 } := by
  obtain ⟨hb, hn⟩ := guard_eq_ok.mp hn
  replace hn := after_check hn
  cases hn
  have hf := hr.numbered done.length first (by rw [ha.admitted_eq]; simp)
  exact ⟨{
    reading := hr
    accounted := by simpa [hdeferred] using ha
    stored := nofun
    rows_eq := rfl
    schema_eq := rfl
    maxBytes_eq := rfl
    maxRows_eq := rfl
    empty := fun _ => rfl
    last_eq := by simp [hf]
    one := .inr hdeferred },
    hdeferred, Nat.pos_of_ne_zero fun h => hb (.inl h)⟩

variable {ledger : DeliveryLedger}

theorem Drained.handedOn (h : Drained config cut ingested done fresh w b) {sent : List IngressEvent}
    (hso : ledger.Sound) (hp : ledger.published = w.actor.reader.ledger.published + fresh.length)
    (hre : ledger.received = w.actor.reader.ledger.received)
    (hk : Keeps w.actor.reader.ledger ledger) (hr : rowsOf sent = rowsOf w.sent ++ b.builder.rows)
    (hb : ∀ pre id post, sent = pre ++ .checkpointBarrier id :: post →
      ∃ post', w.sent = pre ++ .checkpointBarrier id :: post') :
    AtTop config cut ingested { w with sent, actor := { w.actor with
      deferred := b.record.or w.actor.deferred
      reader := { w.actor.reader with ledger }
      ingested := w.actor.ingested + b.builder.rows.length } } := by
  have ho : (b.record.or w.actor.deferred).toList = b.record.toList ++ w.actor.deferred.toList := by
    obtain hn | hn := h.one <;> simp [hn]
  have hd := h.accounted.published_eq
  refine ⟨h.reading.withReader hso hre hk rfl rfl rfl, done ++ fresh, {
    admitted_eq := by rw [ho, append_assoc]; exact h.accounted.admitted_eq
    published_eq := by rw [length_append]; exact hp.trans (by omega)
    rows_eq := by rw [hr, filterMap_append, h.accounted.rows_eq, h.rows_eq]
    stored := List.forall_mem_append.mpr ⟨h.accounted.stored, h.stored⟩
    ingested_eq := by rw [hr, length_append, ← Nat.add_assoc, ← h.accounted.ingested_eq]
    barriers := fun pre id post hs => ?_
    ids := h.accounted.ids }⟩
  obtain ⟨post', hbe⟩ := hb pre id post hs
  obtain ⟨c, hc, hcu, hle, hpr⟩ := h.accounted.barriers pre id post' hbe
  refine ⟨c, hc, hcu, hle.trans (hp ▸ Nat.le_add_right _ _), ?_⟩
  rw [take_append_of_le_length (by omega), hpr]

variable {env : PublishEnv}

/-- **A batch hands on the records it has decoded or stored, and leaves at most one deferred.** -/
theorem publishInput_ok (hre : Reading config cut w)
    (ha : Accounted config cut ingested w done [first]) (hdeferred : w.actor.deferred = none) :
    (w.publishInput config first env).Ensures (AtTop config cut ingested) := by
  refine .bind fun builder hn => .bind fun (w₁, b) hdr => .bind fun batch hf => ?_
  refine .bind fun w₂ hs => .bind fun ledger hp => .bind fun _ _ => .ok ?_
  obtain ⟨hst, hg⟩ := Drained.start hre ha hdeferred hn
  obtain ⟨fresh, hd⟩ := drain_ok hst hg hdr
  obtain rfl := RowBatchBuilder.finish_ok hf
  obtain ⟨sent, rfl, hro, hb⟩ := send_ok hs
  -- The sequences of the batch are those after the published ones.
  have hdo := hd.accounted.published_eq
  have hfi : first.sequence = w₁.actor.reader.ledger.published + 1 :=
    (hre.numbered done.length first (by rw [ha.admitted_eq]; simp)).trans (by rw [hdo])
  have hl : b.lastSequence + 1 - first.sequence = fresh.length := by
    rw [hd.last_eq, length_append]
    omega
  have hr : w₁.actor.reader.ledger.published + fresh.length ≤ w₁.actor.reader.ledger.received := by
    rw [hd.reading.received_eq, hd.accounted.admitted_eq, hdo]
    simp only [length_append]
    omega
  rw [World.publishAll, hl, hfi] at hp
  obtain ⟨hso, hpu, hr, hk⟩ := publishAll_ok hd.reading.sound hr hp
  exact hd.handedOn hso hpu hr hk hro hb

/-! ### One turn -/

theorem AtTop.serviced (h : AtTop config cut ingested w) {actor : Actor}
    (hs : Reader.Serviced w.actor.reader.ledger actor.reader.ledger)
    (hdeferred : actor.deferred = w.actor.deferred)
    (hi : actor.ingested = w.actor.ingested) (hn : actor.nextCheckpoint = w.actor.nextCheckpoint) :
    AtTop config cut ingested { w with actor } := by
  obtain ⟨hr, done, ha⟩ := h
  obtain ⟨hso, hp, hre, hk⟩ := hs
  exact ⟨hr.withReader hso hre hk rfl rfl rfl, done,
    ha.step (by rw [hdeferred]; exact ha.admitted_eq) hp rfl rfl ha.stored hi hn⟩

section Turn

variable (h : AtTop config cut ingested w)

include h

/-- **A barrier is sent behind the rows of all records that are handed on.** -/
theorem checkpoint_ok {env : CheckpointEnv} : (w.checkpoint env).Ensures (AtTop config cut ingested) := by
  obtain ⟨hr, done, ha⟩ := h
  refine .bind fun _ _ => .bind fun _ _ => .bind fun _ _ => ?_
  obtain ⟨hs, hb⟩ := ha.ids
  have hb' : ∀ c ∈ w.cuts, c.1 < w.actor.nextCheckpoint + 1 := fun c hc => Nat.lt_succ_of_lt (hb c hc)
  split
  · exact .error
  · exact .ok ⟨hr.same rfl rfl rfl, done, { ha with ids := ⟨hs, hb'⟩ }⟩
  · refine .ok ⟨hr.same rfl rfl rfl, done, { ha with
      rows_eq := by rw [rowsOf_append, rowsOf_barrier, append_nil]; exact ha.rows_eq
      ingested_eq := by rw [rowsOf_append, rowsOf_barrier, append_nil]; exact ha.ingested_eq
      barriers := fun pre id post hse => ?_
      ids := ?_ }⟩
    · obtain ⟨rfl, hid⟩ | ⟨post', hbe⟩ := append_singleton_split hse
      · obtain rfl := (IngressEvent.checkpointBarrier.inj hid).symm
        have hd := ha.published_eq
        refine ⟨_, mem_append_right _ (mem_singleton_self _), by omega, le_rfl, ?_⟩
        rw [take_of_length_le (by omega), ha.rows_eq]
      · obtain ⟨c, hc, hre⟩ := ha.barriers pre id post' hbe
        exact ⟨c, mem_append_left _ hc, hre⟩
    · refine ⟨?_, forall_mem_concat.mpr ⟨hb', Nat.lt_succ_self _⟩⟩
      rw [map_append]
      exact pairwise_concat.mpr ⟨hs, forall_mem_map.mpr hb⟩

theorem prepare_ok : (w.prepare config t).Ensures (AtTop config cut ingested ·.1) := by
  unfold World.prepare
  split_ifs
  · exact .ok h
  · exact .ok h
  · refine .bind fun (reader, ready') hp => .ok (h.serviced ?_ rfl rfl rfl)
    rw [Reader.preparePull_ok hp]
    exact .refl h.1.sound

theorem cutIfNeeded_ok : (w.cutIfNeeded t ready).Ensures (AtTop config cut ingested) := by
  unfold World.cutIfNeeded
  dsimp only
  split_ifs
  · refine .bind fun admitted _ => ?_
    cases admitted with
    | none => exact .ok h
    | some env => exact checkpoint_ok h
  · exact .ok h

theorem join_ok {worker : ℕ} {outcome : Joined} :
    (w.join worker outcome).Ensures (AtTop config cut ingested) := by
  have hl : AtTop config cut ingested { w with actor := { w.actor with workers := w.actor.workers.eraseIdx worker } } :=
    h.serviced (.refl h.1.sound) rfl rfl rfl
  unfold World.join
  split
  · exact .ok h
  split
  · exact .error
  · exact .bind fun reader hm => .ok (h.serviced (Reader.markCommitted_ok h.1.sound hm) rfl rfl rfl)
  · exact .ok hl

/-- **The deferred record goes first**; only without one is the reader asked. -/
theorem input_ok : (w.input config arrival memory env).Ensures (AtTop config cut ingested) := by
  obtain ⟨hr, done, ha⟩ := h
  unfold World.input
  split
  case h_1 r hdeferred =>
    rw [hdeferred] at ha
    have ht : Accounted config cut ingested { w with actor := { w.actor with deferred := none } } done [r] :=
      ha.step ha.admitted_eq rfl rfl rfl ha.stored rfl rfl
    have hrea : Reading config cut { w with actor := { w.actor with deferred := none } } :=
      hr.same rfl rfl rfl
    exact publishInput_ok hrea ht rfl
  case h_2 hdeferred =>
    refine .bind fun (w₁, p) hp => ?_
    obtain ⟨hr₁, hre, had⟩ := poll_ok hr hp
    have hn : w₁.actor.deferred = none := by rw [hre.actor]; exact hdeferred
    have ha₁ := ha.onlyReads hre had
    rw [hdeferred] at ha₁
    cases p with
    | record r => exact publishInput_ok hr₁ ha₁ hn
    | empty | batchEnd | full | duplicate => exact .ok ⟨hr₁, done, by rw [hn]; exact ha₁⟩

theorem select_ok : ∀ {branch : Branch}, (w.select config ready branch).Ensures (AtTop config cut ingested)
  | .acknowledged acks => .bind fun reader hs =>
      .ok (h.serviced (Reader.serviceAcknowledgements_ok h.1.sound hs) rfl rfl rfl)
  | .slept => .ok h
  | .joined _ _ => join_ok h
  | .command none => .ok h
  | .command (some _) => checkpoint_ok h
  | .progress _ => .bind fun _ _ => .ok h
  | .input _ _ _ => by
    unfold World.select
    split_ifs
    · exact input_ok h
    · exact .ok h

/-- **One turn**: what holds at the top of the loop holds there again. -/
theorem turn_ok : (w.turn config t).Ensures (AtTop config cut ingested) := by
  refine .bind fun _ _ => .bind fun reader hs => .bind fun (w₁, ready) hp => .bind fun w₂ hc => ?_
  have hs : AtTop config cut ingested { w with actor := { w.actor with reader } } :=
    h.serviced (Reader.serviceAcknowledgements_ok h.1.sound hs) rfl rfl rfl
  exact select_ok (cutIfNeeded_ok (prepare_ok hs hp) hc)

/-- **All turns**, by induction on them. -/
theorem run_ok {turns : List Turn} : (w.run config turns).Ensures (AtTop config cut ingested) :=
  fun _ => Result.foldlM_invariant (fun _ _ _ h ht => turn_ok h ht) h

end Turn

theorem atTop_start {maxPending maxBytes : ℕ} (hc : cut ≤ usizeMax)
    (hn : new maxPending maxBytes cut = .ok ledger) (dlq : Option InputDlq) (nextCheckpoint : ℕ)
    (bootstrap : Bool) :
    AtTop config cut ingested (World.start ledger dlq ingested nextCheckpoint bootstrap) := by
  obtain ⟨hso, -, hp, hr, hen⟩ := sound_new hc hn
  refine ⟨{
    sound := hso
    numbered := nofun
    received_eq := hr
    known := fun {k e} he => ?_
    echo := nofun
    short := ⟨nofun, nofun⟩ }, [], {
    admitted_eq := rfl
    published_eq := hp
    rows_eq := rfl
    stored := nofun
    ingested_eq := rfl
    barriers := fun pre id post hs => absurd hs (by simp [World.start])
    ids := ⟨List.Pairwise.nil, nofun⟩ }⟩
  simp [World.start, hen] at he

/-- One column of numbers, in messages of one byte. -/
def sampleConfig : ActorConfig where
  reader := {
    stream := "s", readerName := "r", pullMessages := 8, pullBytes := 1048576, replayEnd := none
    format := {
      isJson := true
      decodeScratch := fun _ _ => 1
      decodeRow := fun _ payload => match payload with
        | [b] => .ok { values := [.uInt64 b.toUInt64] }
        | _ => .error (.new .codecViolation "not one byte") }
    sha256 := id }
  schema := { fields := [{ name := "v", dataType := .uInt64, nullable := false }] }
  batchRows := 4
  rowLimit := 4096
  reservationCap := 1048576
  identity := "s/1"

def sampleFrame (sequence delivery : ℕ) (payload : Bytes) : Frame where
  stream := "s"
  consumer := "r"
  streamSequence := sequence
  consumerSequence := delivery
  subject := [115]
  payload := payload
  length := payload.length + 2
  reply := some "a"

/-- A batch that starts with `first` and reads on. -/
def sampleInput (first : Frame) (more : ℕ → Option Frame) : Branch :=
  .input (.frame first) (fun _ => []) {
    quanta := fun n => {
      scratch := [], credit := { peak := 0, pools := [] }, capture := [], db := .ok ()
      poll := (more n).map fun f => (.frame f, fun _ => []) }
    finish := { peak := 0, pools := [] }
    send := .ok () }

def sampleTurn (branch : Branch) : Turn where
  outputFailed := false
  acks := { completed := [], alive := true }
  pullDue := true
  retention := 1048576
  fetch := .ok ()
  retryDue := true
  admission := .ok none
  branch := branch

/-- The first message comes twice, the second does not decode, and a checkpoint is taken before the third. -/
def sampleTurns : List Turn :=
  [sampleTurn (sampleInput (sampleFrame 11 1 [5]) fun n =>
      if n = 3 then some (sampleFrame 11 2 [5]) else if n = 2 then some (sampleFrame 12 3 []) else none),
    sampleTurn (.command (some { verify := .ok (), begins := .ok (), injected := .sent })),
    sampleTurn (sampleInput (sampleFrame 13 4 [7]) fun _ => none)]

def sampleLedger : DeliveryLedger where
  maxPending := 16
  maxBytes := 1048576
  bytes := 0
  delivered := 0
  received := 10
  published := 10
  committed := 10
  entries := SortedMap.empty

def sampleStart : World :=
  World.start sampleLedger (some { maxEntries := 4, maxPayloadBytes := 4096, source := none, replayFloor := 0, records := [] })
    0 1 false

theorem sample_runs : (sampleStart.run sampleConfig sampleTurns).toOption.isSome = true := by decide

def sampleWorld : World := (sampleStart.run sampleConfig sampleTurns).value sample_runs

/-- **Nothing received is forgotten before it is committed.** At the top of the loop every message above the committed
one is still pending, under the digest of the record that was handed out; the ledger is within its limits, and
its byte count is that of the pending messages. -/
theorem pending_exact {maxPending maxBytes nextCheckpoint cut ingested : ℕ} {config : ActorConfig}
    {ledger : DeliveryLedger}
    {dlq : Option InputDlq} {bootstrap : Bool} {turns : List Turn} {w : World} (hcut : cut ≤ usizeMax)
    (hnew : new maxPending maxBytes cut = .ok ledger)
    (hrun : (World.start ledger dlq ingested nextCheckpoint bootstrap).run config turns = .ok w) :
    let l := w.actor.reader.ledger
    l.committed ≤ l.published ∧ l.published ≤ l.received ∧ l.received = cut + w.admitted.length ∧
      (∀ k, l.committed < k → k ≤ l.received →
        ∃ e, l.entries.get? k = some e ∧ (e.published = true ↔ k ≤ l.published) ∧
        ∃ r ∈ w.admitted, r.sequence = k ∧ e.identity.payloadDigest = config.reader.sha256 r.digested) ∧
      l.entries.size ≤ l.maxPending ∧ l.bytes = (l.entries.entries.map entryBytes).sum ∧
        l.bytes ≤ l.maxBytes := by
  obtain ⟨hr, -⟩ := run_ok (atTop_start hcut hnew dlq nextCheckpoint bootstrap) hrun
  have hs := hr.sound
  refine ⟨hs.committed_le, hs.published_le, hr.received_eq, fun k hl hh => ?_, hs.size_le,
    hs.bytes_eq, hs.bytes_le⟩
  obtain ⟨e, he⟩ := hs.pending hl hh
  exact ⟨e, he, hs.marked he, hr.known he⟩

theorem pending_exact_sample :
    let l := sampleWorld.actor.reader.ledger
    (l.committed, l.published, l.received, l.entries.size, l.bytes) = (10, 13, 13, 3, 3) ∧
      (∀ k, 10 < k → k ≤ 13 → ∃ e, l.entries.get? k = some e ∧ e.published = true) ∧
        l.entries.size ≤ l.maxPending := by
  obtain ⟨-, -, -, hp, hs, -⟩ :=
    pending_exact (by decide) (rfl : new 16 1048576 10 = .ok sampleLedger) (Result.eq_value sample_runs)
  refine ⟨by decide, fun k hl hh => ?_, hs⟩
  obtain ⟨e, he, hm, -⟩ := hp k hl hh
  exact ⟨e, he, hm.mpr hh⟩

end Sparrow.Supervisor
