import Sparrow.Library.SortedMap
import Sparrow.Model.Builder

/-!
# The delivery ledger

`sparrow-connectors/src/jetstream/ledger.rs`: what a reader of a JetStream consumer keeps of
the messages it has admitted, until their acknowledgement is confirmed.

## What is proved

* `observe_ok` — a delivery is new exactly if it is the next message.
* `publish_next`, `committedCheckpoint_ok`, `ackConfirmed_ok` — what the other calls change.
-/

namespace Sparrow.Connectors

open Library Model SortedMap

/-- `u64::checked_add(1)`. -/
def checkedSucc (n : ℕ) : Option ℕ := if n < usizeMax then some (n + 1) else none

/-- `DeliveryIdentity`. -/
structure DeliveryIdentity where
  streamSequence : ℕ
  consumerSequence : ℕ
  payloadDigest : Bytes
  wireBytes : ℕ
  deriving DecidableEq

/-- `Observation`. -/
inductive Observation where
  | new
  | pendingDuplicate
  | committedDuplicate
  deriving DecidableEq

/-- A message that is admitted and not yet acknowledged. -/
structure Entry where
  identity : DeliveryIdentity
  published : Bool
  ack : String
  confirming : Bool

/-- `DeliveryLedger`. -/
structure DeliveryLedger where
  maxPending : ℕ
  maxBytes : ℕ
  bytes : ℕ
  delivered : ℕ
  received : ℕ
  published : ℕ
  committed : ℕ
  entries : SortedMap ℕ Entry

namespace DeliveryLedger

/-- `DeliveryLedger::new`. -/
def new (maxPending maxBytes committed : ℕ) : Result DeliveryLedger := do
  refuseIf (¬ (1 ≤ maxPending ∧ maxPending ≤ 4096) ∨
    ¬ (4096 ≤ maxBytes ∧ maxBytes ≤ 16 * 1024 * 1024) ∨ committed = usizeMax)
    (.new .boundExceeded "JetStream pending ledger bounds invalid")
  return {
    maxPending, maxBytes, bytes := 0, delivered := 0, received := committed, published := committed, committed
    entries := empty }

variable (l : DeliveryLedger)

/-- `pending`. -/
def pending : ℕ := l.entries.size

/-- `remaining_messages`. -/
def remainingMessages : ℕ := l.maxPending - l.pending

/-- `remaining_bytes`. -/
def remainingBytes : ℕ := l.maxBytes - l.bytes

/-- `observe`: the ledger, what the delivery is, and the reply that is retired. -/
def observe (id : DeliveryIdentity) (ack : String) (pools : List Pool) :
    Result (DeliveryLedger × Observation × Option String) := do
  refuseIf (checkedSucc l.delivered ≠ some id.consumerSequence ∨ id.streamSequence = 0 ∨ id.wireBytes = 0)
    (.new .codecViolation "JetStream delivery sequence gap or invalid identity")
  if id.streamSequence ≤ l.committed then
    return ({ l with delivered := id.consumerSequence }, .committedDuplicate, some ack)
  else match l.entries.get? id.streamSequence with
    | some entry => do
      refuseIf (entry.identity.payloadDigest ≠ id.payloadDigest ∨ entry.identity.wireBytes ≠ id.wireBytes)
        (.new .codecViolation "JetStream redelivery content conflicts with pending source identity")
      return ({ l with
        delivered := id.consumerSequence
        entries := l.entries.insert id.streamSequence { entry with ack } }, .pendingDuplicate, some entry.ack)
    | none => do
      refuseIf (checkedSucc l.received ≠ some id.streamSequence)
        (.new .unsupportedRestore "JetStream source sequence gap; refusing silent skip")
      refuseIf (l.entries.size = l.maxPending ∨ l.remainingBytes < id.wireBytes)
        (.new .resourceExhausted "JetStream pending count/byte limit reached")
      refuseIf (usizeMax < 1024 + id.wireBytes) (.new .boundExceeded "JetStream pending charge overflow")
      acquire .retention (1024 + id.wireBytes) pools
      return ({ l with
        entries := l.entries.insert id.streamSequence { identity := id, published := false, ack, confirming := false }
        bytes := l.bytes + id.wireBytes
        received := id.streamSequence
        delivered := id.consumerSequence }, .new, none)

/-- `publish`. -/
def publish (sequence : ℕ) : Result DeliveryLedger := do
  refuseIf (checkedSucc l.published ≠ some sequence)
    (.new .codecViolation "JetStream publication is not a contiguous prefix")
  match l.entries.get? sequence with
  | none => .error (.new .internal "unadmitted JetStream publication")
  | some entry =>
    return { l with entries := l.entries.insert sequence { entry with published := true }, published := sequence }

/-- `committed_checkpoint`. -/
def committedCheckpoint (cut : ℕ) : Result DeliveryLedger := do
  refuseIf (cut < l.committed ∨ l.published < cut)
    (.new .codecViolation "JetStream checkpoint cut exceeds published prefix or regresses")
  return { l with committed := cut }

/-- `next_confirmation`: the first committed entry that is not being acknowledged. -/
def nextConfirmation : Option (DeliveryLedger × ℕ × String) :=
  match l.entries.entries.find? fun e => e.1 ≤ l.committed && !e.2.confirming with
  | none => none
  | some (sequence, entry) =>
    some ({ l with entries := l.entries.insert sequence { entry with confirming := true } }, sequence, entry.ack)

/-- `ack_confirmed`. -/
def ackConfirmed (sequence : ℕ) : Result DeliveryLedger :=
  let refused : Result DeliveryLedger := .error (.new .codecViolation "JetStream ACK is not checkpoint-confirmed")
  match l.entries.get? sequence with
  | none => refused
  | some entry =>
    if l.committed < sequence ∨ entry.published = false then refused
    else .ok { l with entries := l.entries.erase sequence, bytes := l.bytes - entry.identity.wireBytes }

/-! ### Ledgers that are reached -/

def entryBytes (e : ℕ × Entry) : ℕ := e.2.identity.wireBytes

/-- What holds of a ledger at any time. -/
structure Sound (l : DeliveryLedger) : Prop where
  committed_le : l.committed ≤ l.published
  published_le : l.published ≤ l.received
  received_le : l.received ≤ usizeMax
  le_received : ∀ {k e}, l.entries.get? k = some e → k ≤ l.received
  pending : ∀ {k}, l.committed < k → k ≤ l.received → ∃ e, l.entries.get? k = some e
  marked : ∀ {k e}, l.entries.get? k = some e → (e.published = true ↔ k ≤ l.published)
  bytes_eq : l.bytes = (l.entries.entries.map entryBytes).sum
  bytes_le : l.bytes ≤ l.maxBytes
  size_le : l.entries.size ≤ l.maxPending

/-- Every entry was one before, of the same message. -/
def Keeps (l l' : DeliveryLedger) : Prop :=
  ∀ {k e'}, l'.entries.get? k = some e' → ∃ e, l.entries.get? k = some e ∧ e.identity = e'.identity

variable {l l' : DeliveryLedger} {id : DeliveryIdentity} {ack : String} {pools : List Pool}

theorem Keeps.refl (l : DeliveryLedger) : Keeps l l := fun h => ⟨_, h, rfl⟩

theorem Keeps.trans {l'' : DeliveryLedger} (h : Keeps l l') (h' : Keeps l' l'') : Keeps l l'' := by
  intro k e'' he''
  obtain ⟨e', he', hi'⟩ := h' he''
  obtain ⟨e, he, hid⟩ := h he'
  exact ⟨e, he, hid.trans hi'⟩

theorem keeps_insert {k : ℕ} {e : Entry} (e' : Entry) (he : l.entries.get? k = some e)
    (hen : l'.entries = l.entries.insert k e') (hid : e'.identity = e.identity) : Keeps l l' := by
  intro k' e'' he''
  rw [hen, get?_insert] at he''
  split_ifs at he'' with hk
  · cases he''
    exact ⟨e, hk ▸ he, hid.symm⟩
  · exact ⟨e'', he'', rfl⟩

theorem checkedSucc_eq_some {n m : ℕ} : checkedSucc n = some m ↔ m = n + 1 ∧ m ≤ usizeMax := by
  unfold checkedSucc
  split_ifs with h
  · rw [Option.some.injEq]
    omega
  · simp
    omega

theorem sound_new {maxPending maxBytes committed : ℕ} (hc : committed ≤ usizeMax) :
    (new maxPending maxBytes committed).Ensures fun l =>
      l.Sound ∧ l.committed = committed ∧ l.published = committed ∧ l.received = committed ∧ l.entries = empty := by
  refine .bind fun _ _ => .ok ⟨?_, rfl, rfl, rfl, rfl⟩
  exact {
    committed_le := le_rfl
    published_le := le_rfl
    received_le := hc
    le_received := nofun
    pending := fun hlt hle => absurd hlt (not_lt.mpr hle)
    marked := nofun
    bytes_eq := rfl
    bytes_le := Nat.zero_le _
    size_le := Nat.zero_le _ }

section

variable (hl : l.Sound)

include hl

theorem Sound.replace {k : ℕ} {e : Entry} (e' : Entry) {published : ℕ} (he : l.entries.get? k = some e)
    (hid : e'.identity = e.identity) (hm : e'.published = true ↔ k ≤ published)
    (hc : published = l.published ∨ (published = l.published + 1 ∧ k = published)) (delivered : ℕ) :
    Sound { l with delivered, published, entries := l.entries.insert k e' } where
  committed_le := by
    have := hl.committed_le
    dsimp only
    omega
  published_le := by
    have := hl.published_le
    have := hl.le_received he
    dsimp only
    omega
  received_le := hl.received_le
  le_received {k' e''} h := by
    rw [get?_insert] at h
    split_ifs at h with hk
    · exact hl.le_received (hk ▸ he)
    · exact hl.le_received h
  pending {k'} hlt hle := by
    rw [get?_insert]
    split_ifs
    · exact ⟨_, rfl⟩
    · exact hl.pending hlt hle
  marked {k' e''} h := by
    obtain ⟨hk, rfl⟩ | ⟨hk, h⟩ := get?_insert_eq_some.mp h
    · rw [hk]
      exact hm
    · rw [hl.marked h]
      dsimp only
      omega
  bytes_eq := by
    have hsu := sum_insert he e' entryBytes
    have hs : entryBytes (k, e') = entryBytes (k, e) := congrArg DeliveryIdentity.wireBytes hid
    have hb := hl.bytes_eq
    dsimp only
    omega
  bytes_le := hl.bytes_le
  size_le := (size_insert_of_some he e').trans_le hl.size_le

theorem Sound.withDelivered (delivered : ℕ) : Sound { l with delivered } :=
  ⟨hl.1, hl.2, hl.3, hl.4, hl.5, hl.6, hl.7, hl.8, hl.9⟩

theorem Sound.enter (entry : Entry) (hn : l.entries.get? (l.received + 1) = none)
    (hma : l.received + 1 ≤ usizeMax) (hm : entry.published = false) (hs : l.entries.size ≠ l.maxPending)
    (hb : entry.identity.wireBytes ≤ l.remainingBytes) (delivered : ℕ) : Sound { l with
      entries := l.entries.insert (l.received + 1) entry, bytes := l.bytes + entry.identity.wireBytes
      received := l.received + 1, delivered } where
  committed_le := hl.committed_le
  published_le := hl.published_le.trans (Nat.le_succ _)
  received_le := hma
  le_received {k' e'} h := by
    rw [get?_insert] at h
    split_ifs at h with hk
    · exact hk.le
    · exact (hl.le_received h).trans (Nat.le_succ _)
  pending {k'} hlt hle := by
    rw [get?_insert]
    split_ifs with hk
    · exact ⟨_, rfl⟩
    · exact hl.pending hlt (Nat.le_of_lt_succ (lt_of_le_of_ne hle hk))
  marked {k' e'} h := by
    obtain ⟨hk, rfl⟩ | ⟨-, h⟩ := get?_insert_eq_some.mp h
    · have := hl.published_le
      simp only [hm, hk, Bool.false_eq_true, false_iff]
      omega
    · exact hl.marked h
  bytes_eq := by
    rw [sum_insert_of_none hn, ← hl.bytes_eq]
    rfl
  bytes_le := by
    have := hl.bytes_le
    unfold remainingBytes at hb
    dsimp only
    omega
  size_le := by
    have := hl.size_le
    dsimp only
    rw [size_insert_of_none hn]
    omega

def Observed (l : DeliveryLedger) (id : DeliveryIdentity) (l' : DeliveryLedger) : Observation → Prop
  | .new => id.streamSequence = l.received + 1 ∧ l'.received = l.received + 1 ∧
      ∀ {k e'}, l'.entries.get? k = some e' → (k = id.streamSequence ∧ e'.identity = id) ∨
        ∃ e, l.entries.get? k = some e ∧ e.identity = e'.identity
  | .pendingDuplicate => l'.received = l.received ∧ Keeps l l' ∧
      ∃ e, l.entries.get? id.streamSequence = some e ∧ e.identity.payloadDigest = id.payloadDigest
  | .committedDuplicate => l'.received = l.received ∧ Keeps l l' ∧ id.streamSequence ≤ l.committed

/-- **A delivery is new exactly if it is the next message; otherwise it is a message that is pending or committed.** -/
theorem observe_ok : (l.observe id ack pools).Ensures fun (l', obs, _) =>
    l'.Sound ∧ l'.published = l.published ∧ l'.committed = l.committed ∧ Observed l id l' obs := by
  refine .bind fun _ _ => ?_
  split_ifs with hc
  · exact .ok ⟨hl.withDelivered _, rfl, rfl, rfl, Keeps.refl l, hc⟩
  · split
    case h_1 entry he =>
      refine .bind fun _ hsa => .ok ?_
      have hsa := not_or.mp (refuseIf_eq_ok.mp hsa)
      have hma := hl.marked he
      exact ⟨hl.replace { entry with ack } he rfl hma (.inl rfl) _, rfl, rfl, rfl,
        keeps_insert { entry with ack } he rfl rfl, entry, he, not_not.mp hsa.1⟩
    case h_2 hn =>
      refine .bind fun _ hne => .bind fun _ hr => .bind fun _ _ => .bind fun _ _ => .ok ?_
      obtain ⟨hsi, hb⟩ := not_or.mp (refuseIf_eq_ok.mp hr)
      obtain ⟨hs, hm⟩ := checkedSucc_eq_some.mp (not_not.mp (refuseIf_eq_ok.mp hne))
      rw [hs] at hn hm
      have ha := hl.enter { identity := id, published := false, ack, confirming := false } hn hm rfl
        hsi (not_lt.mp hb) id.consumerSequence
      refine ⟨by simpa only [hs] using ha, rfl, rfl, hs, hs, ?_⟩
      intro k e' he'
      obtain ⟨hk, rfl⟩ | ⟨-, he'⟩ := get?_insert_eq_some.mp he'
      · exact .inl ⟨hk, rfl⟩
      · exact .inr ⟨e', he', rfl⟩

/-- **The next message that is received can be published.** -/
theorem publish_next (h : l.published < l.received) :
    ∃ l', l.publish (l.published + 1) = .ok l' ∧ l'.Sound ∧ l'.published = l.published + 1 ∧ l'.received = l.received ∧
      l'.committed = l.committed ∧ Keeps l l' := by
  have hm := hl.received_le
  obtain ⟨entry, he⟩ := hl.pending (k := l.published + 1) (by have := hl.committed_le; omega) h
  have hs : checkedSucc l.published = some (l.published + 1) := checkedSucc_eq_some.mpr ⟨rfl, by omega⟩
  refine ⟨{ l with
    entries := l.entries.insert (l.published + 1) { entry with published := true }, published := l.published + 1 },
    ?_, ?_, rfl, rfl, rfl, keeps_insert { entry with published := true } he rfl rfl⟩
  · refine guard_eq_ok.mpr ⟨(not_not.mpr hs), ?_⟩
    simp only [he]
    rfl
  · exact hl.replace { entry with published := true } he rfl (by simp) (.inr ⟨rfl, rfl⟩) _

theorem committedCheckpoint_ok {cut : ℕ} : (l.committedCheckpoint cut).Ensures fun l' =>
    l'.Sound ∧ l'.published = l.published ∧ l'.received = l.received ∧ Keeps l l' := by
  refine .bind fun _ hc => .ok ?_
  obtain ⟨hlo, hh⟩ := not_or.mp (refuseIf_eq_ok.mp hc)
  refine ⟨{ hl with committed_le := not_lt.mp hh, pending := fun hlt hle => ?_ }, rfl, rfl, Keeps.refl l⟩
  exact hl.pending ((not_lt.mp hlo).trans_lt hlt) hle

theorem nextConfirmation_ok {sequence : ℕ} (h : l.nextConfirmation = some (l', sequence, ack)) :
    l'.Sound ∧ l'.published = l.published ∧ l'.received = l.received ∧ Keeps l l' := by
  unfold nextConfirmation at h
  split at h
  · cases h
  case h_2 sequence' entry hf =>
    obtain ⟨rfl, rfl, rfl⟩ : _ ∧ _ ∧ _ := by simpa using Option.some.inj h
    have he := mem_entries_iff.mp (List.mem_of_find?_eq_some hf)
    have hm := hl.marked he
    exact ⟨hl.replace { entry with confirming := true } he rfl hm (.inl rfl) _, rfl, rfl,
      keeps_insert { entry with confirming := true } he rfl rfl⟩

theorem ackConfirmed_ok {sequence : ℕ} : (l.ackConfirmed sequence).Ensures fun l' =>
    l'.Sound ∧ l'.published = l.published ∧ l'.received = l.received ∧ Keeps l l' := by
  unfold ackConfirmed
  split
  · exact .error
  case h_2 entry he =>
    split_ifs with hr
    · exact .error
    refine .ok ?_
    have hs := sum_erase he entryBytes
    have hb := hl.bytes_eq
    have hen : entryBytes (sequence, entry) = entry.identity.wireBytes := rfl
    have hk : ∀ {k e}, (l.entries.erase sequence).get? k = some e → l.entries.get? k = some e := by
      intro k e h
      exact (get?_erase_eq_some.mp h).2
    refine ⟨?_, rfl, rfl, fun h => ⟨_, hk h, rfl⟩⟩
    exact {
      committed_le := hl.committed_le
      published_le := hl.published_le
      received_le := hl.received_le
      le_received := fun h => hl.le_received (hk h)
      pending := fun {k} hlt hle => by
        rw [get?_erase, if_neg (by dsimp only at hlt; omega)]
        exact hl.pending hlt hle
      marked := fun h => hl.marked (hk h)
      bytes_eq := by dsimp only; omega
      bytes_le := (Nat.sub_le _ _).trans hl.bytes_le
      size_le := (size_erase_le _ _).trans hl.size_le }

end

end DeliveryLedger

end Sparrow.Connectors
