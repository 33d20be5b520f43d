import Sparrow.Checkpoint.WindowScan
import Sparrow.Model.StateKey
import Sparrow.Runtime.JoinExecutor

/-!
# The bytes of a frozen window

A window operator is encoded as it stands (`encode_freeze_into`,
`sparrow-runtime/src/window.rs`), or frozen first and the freeze encoded (`encode_freeze`,
`checkpoint.rs`). The first sorts its keys by the bytes kept with them, the second sorts
copied entries by bytes made again from their values, and both read a hash map in whatever
order it gives its entries.

What `write_snapshot_prefix` and `write_snapshot_suffix` write depends on neither the window
nor the bound and is a parameter, as is what the owner answers to a request for credit.

## What is proved

* `estimatedFrozenBytes_eq` — the two estimates add up the same lengths.
* `freezeEncodings_agree` — both encodings write the same bytes.
* `encode_refuses_more` — `CheckpointSnapshot::encode` has a bound of its own.
-/

namespace Sparrow.Runtime

open Library Model Plan WindowOperator List

/-! ### Values and accumulators -/

/-- `encoded_value_len`. -/
def encodedValueLen : Scalar → Result ℕ
  | .null => .ok 1
  | .bool _ => .ok 2
  | .utf8 v => .ok (satAdd 5 (utf8Bytes v).length)
  | .bytes v => .ok (satAdd 5 v.length)
  | .dynamic _ =>
    .error (.new .featureUnavailable "Dynamic scalars cannot be snapshotted in V1 aligned checkpoint")
  | _ => .ok 9

/-- `encode_opt_scalar`. -/
def encodeOptScalar : Option Scalar → Result Bytes
  | none => .ok [0]
  | some v => do return 1 :: (← encodeValue v)

namespace Accumulator

/-- `encode_codec`, of codec 1. -/
def encode : Accumulator → Result Bytes
  | .extended _ => .error codec1Extended
  | .count rows nonNull star => .ok (1 :: leBytes 8 rows.toNat ++ leBytes 8 nonNull.toNat ++ leBytes 1 star.toNat)
  | .sumI64 sum n => .ok (2 :: leBytes 8 sum.toUInt64.toNat ++ leBytes 8 n.toNat)
  | .sumU64 sum n => .ok (3 :: leBytes 8 sum.toNat ++ leBytes 8 n.toNat)
  | .sumF64 sum n => .ok (4 :: leBytes 8 sum.toNat ++ leBytes 8 n.toNat)
  | .avg sum n sawFloat => .ok (5 :: leBytes 8 sum.toNat ++ leBytes 8 n.toNat ++ leBytes 1 sawFloat.toNat)
  | .min v => do return 6 :: (← encodeOptScalar v)
  | .max v => do return 7 :: (← encodeOptScalar v)

/-- `encoded_len_codec`, of codec 1. -/
def encodedLen : Accumulator → Result ℕ
  | .extended _ => .error codec1Extended
  | .count .. | .avg .. => .ok 18
  | .sumI64 .. | .sumU64 .. | .sumF64 .. => .ok 17
  | .min none | .max none => .ok 2
  | .min (some v) | .max (some v) => do return 2 + (← encodedValueLen v)

end Accumulator

/-! ### Entries -/

/-- `write_freeze_entry`. -/
def writeFreezeEntry (e : FrozenEntry) : Result Bytes := do
  let key ← putValues e.key
  let accs ← e.accs.mapM Accumulator.encode
  return leBytes 2 e.key.length ++ key ++ putI64 e.windowStart ++ putI64 e.windowEnd ++ leBytes 8 e.count ++
    leBytes 2 e.accs.length ++ accs.flatten

/-- `write_opt_i64`, and `encode_opt_i64`. -/
def writeOptI64 : Option ℤ → Bytes
  | none => [0]
  | some x => 1 :: putI64 x

/-- `FrozenEntry::key_bytes`. -/
def FrozenEntry.keyBytes (e : FrozenEntry) : Bytes := encodeKeyValues e.key

def addLens {α : Type} (len : α → Result ℕ) (total : ℕ) (l : List α) : Result ℕ :=
  l.foldlM (fun total a => do return satAdd total (← len a)) total

/-- `ENTRY_OVERHEAD`. -/
def entryOverhead : ℕ := 2 + 8 + 8 + 8 + 2

def entryLen (e : FrozenEntry) : Result ℕ := do
  addLens Accumulator.encodedLen (← addLens encodedValueLen entryOverhead e.key) e.accs

/-! ### Live operators -/

/-- The entries of a store in the order its hash map iterates over them. A `StateKey` is made with its bytes, and those
of one store differ in nothing else. -/
structure LiveStore (V : Type) where
  entries : List (StateKey × V)
  keyed : ∀ e ∈ entries, e.1.encoded = encodeKeyValues e.1.key
  distinct : (entries.map fun e => e.1.encoded).Nodup

namespace LiveStore

variable {V : Type} (s : LiveStore V)

/-- `MemoryState::get`. -/
def get? (k : StateKey) : Option V := (s.entries.find? fun e => e.1 == k).map Prod.snd

/-- The loop of `try_estimated_freeze_bytes`. -/
def estimate (frozen : Stored V → FrozenEntry) : Result ℕ :=
  addLens (fun e => entryLen (frozen ⟨e.1.key, e.2⟩)) 0 s.entries

/-- The loop of `encode_freeze_into_codec`, over references to the keys. -/
def written (frozen : Stored V → FrozenEntry) : Result (List Bytes) :=
  ((s.entries.map Prod.fst).insertionSort fun a b => a.encoded ≤ b.encoded).mapM fun k =>
    match s.get? k with
    | none => .error (.new .internal "freeze key")
    | some e => writeFreezeEntry (frozen ⟨k.key, e⟩)

/-- The loop of `freeze`, and its sort. -/
def frozenEntries (frozen : Stored V → FrozenEntry) : List FrozenEntry :=
  (s.entries.map fun e => frozen ⟨e.1.key, e.2⟩).insertionSort fun a b => a.keyBytes ≤ b.keyBytes

end LiveStore

/-- `WindowStore`. -/
inductive LiveWindows where
  | tumble (s : LiveStore TumbleEntry)
  | count (s : LiveStore CountEntry)

/-- What is done with either kind of store. -/
def LiveWindows.fold {α : Type} (f : ∀ {V : Type}, LiveStore V → (Stored V → FrozenEntry) → α) : LiveWindows → α
  | .tumble s => f s frozenTumble
  | .count s => f s frozenCount

structure LiveOperator where
  operator : ℕ
  spec : WindowSpec
  store : LiveWindows
  wmIn : Option ℤ
  wmOut : Option ℤ
  lastEffective : Option ℤ
  /-- `retention_bytes()`. -/
  retained : ℕ
  retentionCap : ℕ
  reservationCap : ℕ
  acquire : ℕ → Result Unit

def tooManyEntries (n maxEntries : ℕ) : SparrowError :=
  .new .boundExceeded
    s!"freeze entry count {n} exceeds max_state_keys {maxEntries}; refusing encode (would publish unrecoverable CURRENT)"

def overQuota (estimate : ℕ) : SparrowError :=
  .new .boundExceeded
    s!"estimated freeze {estimate}B exceeds {maxSnapshotBytes}B snapshot quota; refusing encode before CURRENT"

namespace LiveOperator

variable (op : LiveOperator)

/-- `key_count`. -/
def keyCount : ℕ := op.store.fold fun s _ => s.entries.length

def kind : ℕ :=
  match op.store with
  | .tumble _ => 0
  | .count _ => 1

/-- `freeze_workspace_bytes`. -/
def freezeWorkspaceBytes : ℕ := satAdd (satMul op.keyCount 16) 64

/-- `check_freeze_encode_bound`. -/
def checkFreezeEncodeBound (maxEntries : ℕ) : Result Unit := do
  refuseIf (op.keyCount > maxEntries) (tooManyEntries op.keyCount maxEntries)
  let estimate := satAdd (← op.store.fold LiveStore.estimate) 256
  refuseIf (estimate > maxSnapshotBytes) (overQuota estimate)
  let live := op.retained
  let working := satAdd estimate op.freezeWorkspaceBytes
  let retention := op.retentionCap
  let reservation := op.reservationCap
  refuseIf (live > retention ∨ working > reservation) (.new .boundExceeded
    (s!"freeze encode requires live {live}B / retention {retention}B and working {working}B " ++
      s!"(encoded {estimate}B) / reservation {reservation}B; refusing encode before CURRENT"))

/-- `encode_freeze_into_codec`, of codec 1: what it appends. -/
def encodeFreezeIntoCodec (maxEntries : ℕ) : Result Bytes := do
  op.checkFreezeEncodeBound maxEntries
  op.acquire op.freezeWorkspaceBytes
  let entries ← op.store.fold LiveStore.written
  return leBytes 4 op.operator ++ leBytes 2 slot ++ leBytes 1 op.kind ++ leBytes 4 op.keyCount ++
    entries.flatten ++ writeOptI64 op.wmIn ++ writeOptI64 op.wmOut ++ writeOptI64 op.lastEffective

/-- `encode_freeze_into`. -/
def encodeFreezeInto (maxEntries : ℕ) : Result Bytes := do
  refuseIf (hasExtendedAggs op.spec) codec1Extended
  op.encodeFreezeIntoCodec maxEntries

/-- `freeze`. -/
def freeze : WindowFreeze :=
  { operator := op.operator, slot := slot, kind := op.kind,
    entries := op.store.fold LiveStore.frozenEntries, wmIn := op.wmIn, wmOut := op.wmOut,
    lastEffective := op.lastEffective }

end LiveOperator

/-! ### Frozen operators, and snapshots -/

/-- `estimated_frozen_bytes`, of codec 1. -/
def estimatedFrozenBytes (f : WindowFreeze) : Result ℕ :=
  f.entries.foldlM (fun total e => do
    let total ← addLens encodedValueLen (satAdd total entryOverhead) e.key
    addLens Accumulator.encodedLen total e.accs) 0

/-- `encode_freeze`: what it appends. -/
def encodeFreeze (f : WindowFreeze) (maxEntries : ℕ) : Result Bytes := do
  refuseIf (f.entries.length > maxEntries) (tooManyEntries f.entries.length maxEntries)
  let estimate := satAdd (← estimatedFrozenBytes f) 256
  refuseIf (estimate > maxSnapshotBytes) (overQuota estimate)
  let entries ← f.entries.mapM writeFreezeEntry
  return leBytes 4 f.operator ++ leBytes 2 f.slot ++ leBytes 1 f.kind ++ leBytes 4 f.entries.length ++
    entries.flatten ++ writeOptI64 f.wmIn ++ writeOptI64 f.wmOut ++ writeOptI64 f.lastEffective

/-- `MAX_FREEZE_ENTRIES`. -/
def maxFreezeEntries : ℕ := 16384

/-- `freeze_entry_cap`. -/
def freezeEntryCap (maxStateKeys : ℕ) : ℕ := if maxStateKeys = 0 then maxFreezeEntries else maxStateKeys

section Snapshots

/- What stands before the window in a snapshot, and after it. -/
variable (before after : Result Bytes)

/-- `encode_with_max_state_keys`. -/
def encodeWithMaxStateKeys (window : WindowFreeze) (maxStateKeys : ℕ) : Result Bytes := do
  let head ← before
  let body ← encodeFreeze window (freezeEntryCap maxStateKeys)
  let tail ← after
  return head ++ body ++ tail

/-- `CheckpointSnapshot::encode`. -/
def encodeSnapshot (window : WindowFreeze) : Result Bytes := encodeWithMaxStateKeys before after window maxFreezeEntries

/-- `encode_from_operator`. -/
def encodeFromOperator (op : LiveOperator) (maxStateKeys : ℕ) : Result Bytes := do
  refuseIf (hasExtendedAggs op.spec) codec1Extended
  let head ← before
  let body ← op.encodeFreezeIntoCodec (freezeEntryCap maxStateKeys)
  let tail ← after
  return head ++ body ++ tail

end Snapshots

/-! ### Estimates -/

section Lens

variable {α : Type} {len : α → Result ℕ}

theorem addLens_cons (total : ℕ) (a : α) (l : List α) :
    addLens len total (a :: l) = len a >>= fun n => addLens len (satAdd total n) l := by
  rw [addLens, foldlM_cons, bind_assoc]
  rfl

theorem addLens_satAdd (total n : ℕ) (l : List α) :
    addLens len (satAdd total n) l = (satAdd total ·) <$> addLens len n l := by
  induction l generalizing n with
  | nil => rfl
  | cons a l ih =>
    rw [addLens_cons, addLens_cons, map_bind]
    refine bind_congr fun m => ?_
    rw [← ih]
    unfold satAdd
    congr 1
    omega

def lenOf (len : α → Result ℕ) (a : α) : ℕ := (len a).toOption.getD 0

theorem addLens_eq_ok {total n : ℕ} (ht : total ≤ usizeMax) {l : List α} :
    addLens len total l = .ok n ↔ (∀ a ∈ l, len a = .ok (lenOf len a)) ∧ n = satAdd total (l.map (lenOf len)).sum := by
  induction l generalizing total with
  | nil =>
    have hs : satAdd total 0 = total := min_eq_left ht
    simp [addLens, hs, pure, Except.pure, eq_comm]
  | cons a l ih =>
    rw [addLens_cons, bind_eq_ok, forall_mem_cons, map_cons, sum_cons, ← satAdd_satAdd]
    constructor
    · rintro ⟨m, hm, h⟩
      obtain rfl : lenOf len a = m := by simp [lenOf, hm, Except.toOption]
      exact ⟨⟨hm, ((ih (satAdd_le _ _)).mp h).1⟩, ((ih (satAdd_le _ _)).mp h).2⟩
    · rintro ⟨⟨hm, h⟩, rfl⟩
      exact ⟨_, hm, (ih (satAdd_le _ _)).mpr ⟨h, rfl⟩⟩

theorem addLens_perm {n : ℕ} {l l' : List α} (hp : l.Perm l') (h : addLens len 0 l = .ok n) :
    addLens len 0 l' = .ok n := by
  obtain ⟨hal, hs⟩ := (addLens_eq_ok (Nat.zero_le _)).mp h
  exact (addLens_eq_ok (Nat.zero_le _)).mpr
    ⟨fun a ha => hal a (hp.mem_iff.mpr ha), by rw [hs, (hp.map _).sum_eq]⟩

end Lens

theorem estimatedFrozenBytes_eq (f : WindowFreeze) : estimatedFrozenBytes f = addLens entryLen 0 f.entries := by
  unfold estimatedFrozenBytes
  congr 1
  funext total e
  rw [addLens_satAdd, entryLen, map_eq_pure_bind, bind_assoc]
  simp only [pure_bind, addLens_satAdd, map_eq_pure_bind, bind_assoc]

/-! ### Entries in order -/

theorem mapM_congr {α β : Type} {f g : α → Result β} {l : List α} (h : ∀ a ∈ l, f a = g a) : l.mapM f = l.mapM g := by
  induction l with
  | nil => rfl
  | cons a l ih =>
    obtain ⟨ha, hl⟩ := List.forall_mem_cons.mp h
    rw [mapM_cons, mapM_cons, ha, ih hl]

namespace LiveStore

variable {V : Type} {s s' : LiveStore V} {frozen : Stored V → FrozenEntry}

def sorted (s : LiveStore V) : List (StateKey × V) := s.entries.insertionSort fun a b => a.1.encoded ≤ b.1.encoded

theorem get?_of_mem {e : StateKey × V} (he : e ∈ s.entries) : s.get? e.1 = some e.2 := by
  have hs : (e.1 == e.1) = true := by simp [BEq.beq]
  cases hf : s.entries.find? (fun e' => e'.1 == e.1) with
  | none => exact absurd hs (List.find?_eq_none.mp hf e he)
  | some e' =>
    have hk := find?_some hf
    have hen : e'.1.encoded = e.1.encoded := by
      simp only [BEq.beq, Bool.and_eq_true, decide_eq_true_eq] at hk
      exact hk.2
    obtain rfl := inj_on_of_nodup_map s.distinct (mem_of_find?_eq_some hf) he hen
    simp [get?, hf]

theorem frozenEntries_eq (hf : ∀ e, (frozen e).key = e.key) :
    s.frozenEntries frozen = s.sorted.map fun e => frozen ⟨e.1.key, e.2⟩ := by
  refine (map_insertionSort _ _ _ _ fun a ha b hb => ?_).symm
  rw [FrozenEntry.keyBytes, FrozenEntry.keyBytes, hf, hf, s.keyed a ha, s.keyed b hb]

/-- **What is written is the freeze**, entry by entry. -/
theorem written_eq (hf : ∀ e, (frozen e).key = e.key) :
    s.written frozen = (s.frozenEntries frozen).mapM writeFreezeEntry := by
  have hk : (s.entries.map Prod.fst).insertionSort (fun a b => a.encoded ≤ b.encoded) = s.sorted.map Prod.fst :=
    (map_insertionSort _ _ Prod.fst s.entries fun a _ b _ => by rfl).symm
  rw [written, hk, frozenEntries_eq hf, mapM_map, mapM_map]
  refine mapM_congr fun e he => ?_
  rw [sorted, mem_insertionSort] at he
  simp [get?_of_mem he]

theorem sorted_eq_of_perm (h : s.entries.Perm s'.entries) : s.sorted = s'.sorted := by
  refine Perm.eq_of_pairwise (fun a b ha hb hab hba => ?_) (pairwise_insertionSort _ s.entries)
    (pairwise_insertionSort _ s'.entries)
    ((perm_insertionSort _ _).trans (h.trans (perm_insertionSort _ _).symm))
  rw [sorted, mem_insertionSort] at ha hb
  exact inj_on_of_nodup_map s.distinct ha (h.mem_iff.mpr hb) (le_antisymm hab hba)

end LiveStore

/-- Stores with the same entries, given in any order. -/
inductive LiveWindows.Same : LiveWindows → LiveWindows → Prop where
  | tumble {s s' : LiveStore TumbleEntry} (h : s.entries.Perm s'.entries) : Same (.tumble s) (.tumble s')
  | count {s s' : LiveStore CountEntry} (h : s.entries.Perm s'.entries) : Same (.count s) (.count s')

namespace LiveWindows

variable {w w' : LiveWindows}

theorem written_eq (w : LiveWindows) :
    w.fold LiveStore.written = (w.fold LiveStore.frozenEntries).mapM writeFreezeEntry := by
  cases w with
  | tumble s | count s => exact LiveStore.written_eq fun _ => rfl

theorem length_frozenEntries (w : LiveWindows) :
    (w.fold LiveStore.frozenEntries).length = w.fold fun s _ => s.entries.length := by
  cases w <;> simp [fold, LiveStore.frozenEntries]

theorem estimate_eq_ok {n : ℕ} :
    w.fold LiveStore.estimate = .ok n ↔ addLens entryLen 0 (w.fold LiveStore.frozenEntries) = .ok n := by
  have hs {V : Type} (s : LiveStore V) (frozen : Stored V → FrozenEntry) :
      s.estimate frozen = .ok n ↔ addLens entryLen 0 (s.frozenEntries frozen) = .ok n := by
    have hm : s.estimate frozen = addLens entryLen 0 (s.entries.map fun e => frozen ⟨e.1.key, e.2⟩) := by
      rw [addLens, foldlM_map]
      rfl
    have hp := perm_insertionSort (fun a b : FrozenEntry => a.keyBytes ≤ b.keyBytes)
      (s.entries.map fun e => frozen ⟨e.1.key, e.2⟩)
    rw [hm]
    exact ⟨addLens_perm hp.symm, addLens_perm hp⟩
  cases w with
  | tumble s | count s => exact hs s _

theorem Same.frozenEntries_eq (h : w.Same w') : w.fold LiveStore.frozenEntries = w'.fold LiveStore.frozenEntries := by
  cases h with
  | tumble h =>
    rw [fold, fold, LiveStore.frozenEntries_eq fun _ => rfl, LiveStore.frozenEntries_eq fun _ => rfl,
      LiveStore.sorted_eq_of_perm h]
  | count h =>
    rw [fold, fold, LiveStore.frozenEntries_eq fun _ => rfl, LiveStore.frozenEntries_eq fun _ => rfl,
      LiveStore.sorted_eq_of_perm h]

end LiveWindows

/-! ### The encodings agree -/

theorem encodeFreeze_ok_of_le {f : WindowFreeze} {m n : ℕ} {out : Bytes} (h : encodeFreeze f m = .ok out)
    (hn : f.entries.length ≤ n) : encodeFreeze f n = .ok out := by
  obtain ⟨u, -, h⟩ := bind_eq_ok.mp h
  exact bind_eq_ok.mpr ⟨u, refuseIf_eq_ok.mpr (not_lt.mpr hn), h⟩

namespace LiveOperator

variable {op : LiveOperator} {store : LiveWindows} {m : ℕ} {out : Bytes}

theorem kind_eq_of_same (h : op.store.Same store) : op.kind = { op with store }.kind := by
  unfold kind
  generalize op.store = s at h
  cases h <;> rfl

theorem freeze_eq_of_same (h : op.store.Same store) : op.freeze = { op with store }.freeze := by
  rw [freeze, freeze, kind_eq_of_same h, h.frozenEntries_eq]

theorem length_freeze (op : LiveOperator) : op.freeze.entries.length = op.keyCount :=
  LiveWindows.length_frozenEntries op.store

theorem encodeFreeze_of_into (h : op.encodeFreezeIntoCodec m = .ok out) : encodeFreeze op.freeze m = .ok out := by
  obtain ⟨_, hb, h⟩ := bind_eq_ok.mp h
  replace h := after_check h
  obtain ⟨entries, he, h⟩ := bind_eq_ok.mp h
  obtain ⟨u, hc, hb⟩ := bind_eq_ok.mp hb
  obtain ⟨n, hes, hb⟩ := bind_eq_ok.mp hb
  obtain ⟨_, hq, -⟩ := bind_eq_ok.mp hb
  rw [LiveWindows.written_eq] at he
  rw [← h, encodeFreeze, estimatedFrozenBytes_eq, length_freeze]
  refine bind_eq_ok.mpr ⟨u, hc, bind_eq_ok.mpr ⟨n, LiveWindows.estimate_eq_ok.mp hes, ?_⟩⟩
  exact bind_eq_ok.mpr ⟨_, hq, bind_eq_ok.mpr ⟨entries, he, rfl⟩⟩

theorem into_of_same (hs : op.store.Same store) (h : op.encodeFreezeIntoCodec m = .ok out) :
    { op with store }.encodeFreezeIntoCodec m = .ok out := by
  have hc : op.keyCount = { op with store }.keyCount := by
    rw [keyCount, keyCount, ← LiveWindows.length_frozenEntries, ← LiveWindows.length_frozenEntries, hs.frozenEntries_eq]
  have hw : op.store.fold LiveStore.written = store.fold LiveStore.written := by
    rw [LiveWindows.written_eq, LiveWindows.written_eq, hs.frozenEntries_eq]
  obtain ⟨u, hb, h⟩ := bind_eq_ok.mp h
  obtain ⟨_, hf, hb⟩ := bind_eq_ok.mp hb
  obtain ⟨n, he, hb⟩ := bind_eq_ok.mp hb
  have he' : store.fold LiveStore.estimate = .ok n := by
    rw [LiveWindows.estimate_eq_ok, ← hs.frozenEntries_eq]
    exact LiveWindows.estimate_eq_ok.mp he
  have hsp : op.freezeWorkspaceBytes = { op with store }.freezeWorkspaceBytes := by
    rw [freezeWorkspaceBytes, freezeWorkspaceBytes, hc]
  rw [hc] at hf
  rw [hsp] at hb
  rw [hsp, hc, hw, kind_eq_of_same hs] at h
  exact bind_eq_ok.mpr ⟨u, bind_eq_ok.mpr ⟨_, hf, bind_eq_ok.mpr ⟨n, he', hb⟩⟩, h⟩

end LiveOperator

/-- **Both encodings write the same bytes**, whatever the order in which the map gives its entries; but
`CheckpointSnapshot::encode` only up to its own bound. -/
theorem freezeEncodings_agree (op : LiveOperator) (store : LiveWindows) (hsame : op.store.Same store)
    (maxEntries : ℕ) (before after : Result Bytes) (out : Bytes) :
    op.freeze = { op with store }.freeze ∧ (op.encodeFreezeInto maxEntries = .ok out →
        encodeFreeze op.freeze maxEntries = .ok out ∧ { op with store }.encodeFreezeInto maxEntries = .ok out) ∧
      (encodeFromOperator before after op maxEntries = .ok out →
        encodeWithMaxStateKeys before after op.freeze maxEntries = .ok out ∧
          encodeFromOperator before after { op with store } maxEntries = .ok out ∧
          (op.keyCount ≤ maxFreezeEntries → encodeSnapshot before after op.freeze = .ok out)) := by
  refine ⟨LiveOperator.freeze_eq_of_same hsame, fun h => ?_, fun h => ?_⟩
  · obtain ⟨u, hc, h⟩ := bind_eq_ok.mp h
    exact ⟨LiveOperator.encodeFreeze_of_into h, bind_eq_ok.mpr ⟨u, hc, LiveOperator.into_of_same hsame h⟩⟩
  · obtain ⟨u, hc, h⟩ := bind_eq_ok.mp h
    obtain ⟨head, hh, h⟩ := bind_eq_ok.mp h
    obtain ⟨body, hb, h⟩ := bind_eq_ok.mp h
    have hf := LiveOperator.encodeFreeze_of_into hb
    have hs {n : ℕ} (hn : encodeFreeze op.freeze (freezeEntryCap n) = .ok body) :
        encodeWithMaxStateKeys before after op.freeze n = .ok out :=
      bind_eq_ok.mpr ⟨head, hh, bind_eq_ok.mpr ⟨body, hn, h⟩⟩
    refine ⟨hs hf, ?_, fun hco => hs (encodeFreeze_ok_of_le hf ?_)⟩
    · exact bind_eq_ok.mpr ⟨u, hc, bind_eq_ok.mpr ⟨head, hh,
        bind_eq_ok.mpr ⟨body, LiveOperator.into_of_same hsame hb, h⟩⟩⟩
    · exact op.length_freeze.le.trans hco

def windowsOf (ks : List ℤ) (hfits : ∀ k ∈ ks, fitsI64 k = true) (hnodup : ks.Nodup) : LiveStore CountEntry where
  entries := ks.map fun k => (.new 0 slot [.int64 (.ofInt k)], { count := 1, accs := [.count 1 1 true] })
  keyed := by simp [StateKey.new]
  distinct := by
    rw [map_map]
    exact hnodup.map_on fun i hi j hj h => (@etKeyBytes_inj [] [] i j (hfits i hi) (hfits j hj) h).2

/-- `COUNT(*)` of two rows by key, after a row of each of the keys. -/
def counting (ks : List ℤ) (hfits : ∀ k ∈ ks, fitsI64 k = true) (hnodup : ks.Nodup) : LiveOperator :=
  { operator := 0, spec := .new (.count 2) ["k"] [⟨.count, none, "c", true⟩]
    store := .count (windowsOf ks hfits hnodup), wmIn := none, wmOut := none, lastEffective := none
    retained := 512 * ks.length, retentionCap := 2 ^ 26, reservationCap := 2 ^ 30, acquire := fun _ => .ok () }

theorem keyCount_counting (ks : List ℤ) (hf : ∀ k ∈ ks, fitsI64 k = true) (hn : ks.Nodup) :
    (counting ks hf hn).keyCount = ks.length := length_map _

theorem counting_written (ks : List ℤ) (hf : ∀ k ∈ ks, fitsI64 k = true) (hn : ks.Nodup)
    (hle : ks.length ≤ 2 ^ 17) : ∃ out, (counting ks hf hn).encodeFreezeIntoCodec ks.length = .ok out := by
  have hc := keyCount_counting ks hf hn
  have hes : (windowsOf ks hf hn).estimate frozenCount = .ok (55 * ks.length) := by
    refine (addLens_eq_ok (Nat.zero_le _)).mpr ⟨List.forall_mem_map.mpr fun k _ => rfl, ?_⟩
    have hl : ((windowsOf ks hf hn).entries.map
        (lenOf fun e => entryLen (frozenCount ⟨e.1.key, e.2⟩))) = ks.map fun _ => 55 := map_map
    rw [hl, map_const', sum_replicate_nat, satAdd, usizeMax]
    omega
  have hw : ∃ entries, (windowsOf ks hf hn).written frozenCount = .ok entries := by
    rw [LiveStore.written_eq fun _ => rfl]
    refine ⟨_, Result.mapM_ok (g := fun e => (writeFreezeEntry e).toOption.getD []) fun e he => ?_⟩
    rw [LiveStore.frozenEntries, mem_insertionSort, mem_map] at he
    obtain ⟨_, hk, rfl⟩ := he
    obtain ⟨k, -, rfl⟩ := List.mem_map.mp hk
    rfl
  obtain ⟨entries, hw⟩ := hw
  refine ⟨_, bind_eq_ok.mpr ⟨(), guard_eq_ok.mpr ⟨(by omega), bind_eq_ok.mpr ⟨_, hes, ?_⟩⟩,
    bind_eq_ok.mpr ⟨(), rfl, bind_eq_ok.mpr ⟨entries, hw, rfl⟩⟩⟩⟩
  have hs : satAdd (55 * ks.length) 256 ≤ 55 * ks.length + 256 := min_le_left _ _
  have hwo : (counting ks hf hn).freezeWorkspaceBytes ≤ ks.length * 16 + 64 := by
    rw [LiveOperator.freezeWorkspaceBytes, hc]
    unfold satAdd satMul
    omega
  refine guard_eq_ok.mpr ⟨?_, refuseIf_eq_ok.mpr ?_⟩
  · unfold maxSnapshotBytes
    omega
  · have hwor : satAdd (satAdd (55 * ks.length) 256) (counting ks hf hn).freezeWorkspaceBytes ≤ _ :=
      min_le_left _ _
    simp only [counting, gt_iff_lt, not_or, not_lt] at hwor hwo ⊢
    omega

theorem encode_refuses_more : ∃ op out, encodeFromOperator (.ok []) (.ok []) op 16385 = .ok out ∧
    encodeSnapshot (.ok []) (.ok []) op.freeze = .error (tooManyEntries 16385 16384) := by
  have hf : ∀ k ∈ (List.range 16385).map (Nat.cast : ℕ → ℤ), fitsI64 k = true := by
    refine List.forall_mem_map.mpr fun k hk => decide_eq_true ?_
    rw [mem_range] at hk
    unfold i64Min i64Max
    omega
  have hn : ((List.range 16385).map (Nat.cast : ℕ → ℤ)).Nodup := List.nodup_range.map Nat.cast_injective
  have hl : ((List.range 16385).map (Nat.cast : ℕ → ℤ)).length = 16385 := by rw [length_map, length_range]
  obtain ⟨out, ho⟩ := counting_written _ hf hn (by omega)
  rw [hl] at ho
  refine ⟨counting _ hf hn, out, ?_, ?_⟩
  · refine bind_eq_ok.mpr ⟨(), rfl, bind_eq_ok.mpr ⟨[], rfl, bind_eq_ok.mpr ⟨out, ho, bind_eq_ok.mpr ⟨[], rfl, ?_⟩⟩⟩⟩
    rw [nil_append, append_nil]
    rfl
  · have he : (counting _ hf hn).freeze.entries.length = 16385 := by
      rw [LiveOperator.length_freeze, keyCount_counting, hl]
    refine Result.bind_eq_error.mpr (.inr ⟨[], rfl,
      Result.bind_eq_error.mpr (.inl (Result.bind_eq_error.mpr (.inl ?_)))⟩)
    rw [he]
    rfl

theorem freezeEncodings_agree_reordered : ∃ out,
    encodeFreeze (counting [2, 1] (by decide) (by decide)).freeze 2 = .ok out ∧
      (counting [1, 2] (by decide) (by decide)).encodeFreezeInto 2 = .ok out := by
  obtain ⟨out, ho⟩ := counting_written [2, 1] (by decide) (by decide) (by decide)
  have hs : LiveWindows.Same (counting [2, 1] (by decide) (by decide)).store
      (counting [1, 2] (by decide) (by decide)).store := .count (.swap _ _ _)
  exact ⟨out, (freezeEncodings_agree _ _ hs 2 (.ok []) (.ok []) out).2.1 (bind_eq_ok.mpr ⟨(), rfl, ho⟩)⟩

end Sparrow.Runtime
