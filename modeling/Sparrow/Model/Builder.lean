import Sparrow.Model.Schema

/-!
# Leases and the batch builder

`MemoryOwner::acquire` (`sparrow-model/src/memory.rs`) and `RowBatchBuilder`
(`sparrow-model/src/batch.rs`).

## The model

An owner is shared with the rest of the job, so what it has in use is given with each
request, for the owner and its parents. The lease of a builder grows before a row is
stored; it holds what the builder is charged.
-/

namespace Sparrow.Model

open Library

/-! ### Leases -/

/-- What an owner has of one kind of credit at a moment. -/
structure Pool where
  label : String
  used : ℕ
  cap : ℕ

/-- `CreditKind::as_str`. -/
def CreditKind.text : CreditKind → String
  | .reservation => "reservation"
  | .retention => "retention"
  | .queue => "queue"

/-- `credits exhausted`. -/
def creditsExhausted (p : Pool) (kind : CreditKind) (bytes : ℕ) : SparrowError :=
  let label := p.label
  let kind := kind.text
  let used := p.used
  let cap := p.cap
  ((((SparrowError.new .resourceExhausted s!"{label}: {kind} credits exhausted: used={used} request={bytes} cap={cap}").withContext
    "credit" kind).withContext "used" (toString used)).withContext "request"
      (toString bytes)).withContext "cap" (toString cap)

/-- `MemoryOwner::acquire`, for an owner followed by its parents. -/
def acquire (kind : CreditKind) (bytes : ℕ) : List Pool → Result Unit
  | [] => refuseIf (bytes = 0) (.new .invalidArgument "cannot acquire a zero-byte lease")
  | p :: parents => do
    refuseIf (bytes = 0) (.new .invalidArgument "cannot acquire a zero-byte lease")
    refuseIf (p.cap < satAdd p.used bytes) (creditsExhausted p kind bytes)
    acquire kind bytes parents

variable {kind : CreditKind} {bytes : ℕ} {e : SparrowError}

theorem acquire_error (hb : bytes ≠ 0) :
    ∀ {pools : List Pool}, acquire kind bytes pools = .error e → e.code = .resourceExhausted
  | [], h => by simp [acquire, refuseIf, hb] at h
  | p :: parents, h => by
    simp only [acquire, refuseIf, hb, if_false] at h
    by_cases hc : p.cap < satAdd p.used bytes
    · rw [if_pos hc] at h
      cases h
      rfl
    · rw [if_neg hc] at h
      exact acquire_error hb h

theorem acquire_ne_zero {pools : List Pool} {u : Unit} (h : acquire kind bytes pools = .ok u) : bytes ≠ 0 := by
  cases pools with
  | nil => exact refuseIf_eq_ok.mp h
  | cons p parents =>
    obtain ⟨hb, -⟩ := guard_eq_ok.mp h
    exact hb

/-- `MemoryLease::grow_to`, for a lease that only the builder holds. -/
def growTo (kind : CreditKind) (held bytes : ℕ) : List Pool → Result Unit
  | [] => .ok ()
  | p :: parents =>
    let label := p.label
    let credit := kind.text
    if bytes ≤ held then .ok ()
    else do
      refuseIf (p.cap < satAdd p.used (bytes - held))
        (.new .resourceExhausted s!"{label}: {credit} credits exhausted while growing to {bytes}")
      growTo kind held bytes parents

theorem growTo_error {held : ℕ} :
    ∀ {pools : List Pool}, growTo kind held bytes pools = .error e → e.code = .resourceExhausted
  | [], h => by cases h
  | p :: parents, h => by
    simp only [growTo, refuseIf] at h
    split_ifs at h with hh hc
    · cases h
      rfl
    · exact growTo_error h

/-! ### Tracked size -/

mutual

/-- `DynamicValue::tracked_bytes`. -/
def DynamicValue.trackedBytes : DynamicValue → ℕ
  | .utf8 v => 8 + (utf8Bytes v).length
  | .bytes v => 8 + v.length
  | .array values => 8 + trackedElements values
  | .object values => 8 + trackedEntries values
  | _ => 8

def trackedElements : List DynamicValue → ℕ
  | [] => 0
  | x :: rest => x.trackedBytes + trackedElements rest

def trackedEntries : List (String × DynamicValue) → ℕ
  | [] => 0
  | (k, x) :: rest => (utf8Bytes k).length + x.trackedBytes + trackedEntries rest

end

/-- `Scalar::tracked_bytes`. -/
def Scalar.trackedBytes : Scalar → ℕ
  | .utf8 v => 16 + (utf8Bytes v).length
  | .bytes v => 16 + v.length
  | .dynamic v => 16 + v.trackedBytes
  | _ => 16

/-- `Row::tracked_bytes`. -/
def Row.trackedBytes (r : Row) : ℕ := (r.values.map Scalar.trackedBytes).sum + 8

/-! ### The builder -/

/-- `RowBatchBuilder`. -/
structure RowBatchBuilder where
  schema : Schema
  maxRows : ℕ
  maxBytes : ℕ
  rows : List Row
  currentBytes : ℕ

/-- What the builder finds of its owner. -/
structure BuilderCredit where
  /-- `peak_builder_bytes`. -/
  peak : ℕ
  pools : List Pool

namespace RowBatchBuilder

/-- `RowBatchBuilder::new`, under a budget. -/
def new (schema : Schema) (maxRows maxBytes cap : ℕ) : Result RowBatchBuilder := do
  refuseIf (maxRows = 0 ∨ maxBytes = 0) (.new .invalidArgument "builder bounds must be non-zero")
  refuseIf (cap < maxBytes) (.new .invalidArgument s!"builder max_bytes {maxBytes} exceeds reservation cap {cap}")
  return { schema, maxRows, maxBytes, rows := [], currentBytes := 0 }

variable (b : RowBatchBuilder)

def charged (row : Row) (minimumBytes : ℕ) : ℕ :=
  satAdd b.currentBytes (max row.trackedBytes minimumBytes)

/-- The lease is taken with the first row and grows with the others. -/
def growLease (next : ℕ) (credit : BuilderCredit) : Result Unit :=
  if b.rows = [] then acquire .reservation (max next 1) credit.pools
  else growTo .reservation (max b.currentBytes 1) (max next 1) credit.pools

/-- `push_accounted`. -/
def pushAccounted (row : Row) (minimumBytes : ℕ) (credit : BuilderCredit) : Result RowBatchBuilder := do
  checkRow b.schema row
  let maxRows := b.maxRows
  refuseIf (maxRows ≤ b.rows.length)
    ((SparrowError.new .boundExceeded s!"builder row cap {maxRows} reached").withContext "max_rows" (toString maxRows))
  let next := b.charged row minimumBytes
  let maxBytes := b.maxBytes
  refuseIf (maxBytes < next)
    ((((SparrowError.new .boundExceeded s!"builder byte cap {maxBytes} would be exceeded by {next}").withContext
      "max_bytes" (toString maxBytes)).withContext "attempted" (toString next)).withContext "peak"
        (toString credit.peak))
  b.growLease next credit
  return { b with rows := b.rows ++ [row], currentBytes := next }

/-- `finish`. -/
def finish (credit : BuilderCredit) : Result RowBatch :=
  let batch : RowBatch := { schema := b.schema, rows := b.rows }
  if b.rows = [] then do
    acquire .reservation (max b.currentBytes 1) credit.pools
    return batch
  else .ok batch

variable {b b' : RowBatchBuilder} {row : Row} {minimum next : ℕ} {credit : BuilderCredit} {e : SparrowError}

theorem growLease_error (h : b.growLease next credit = .error e) : e.code = .resourceExhausted := by
  unfold growLease at h
  split_ifs at h
  · exact acquire_error (by omega) h
  · exact growTo_error h

theorem pushAccounted_ok (h : b.pushAccounted row minimum credit = .ok b') :
    checkRow b.schema row = .ok () ∧ b.charged row minimum ≤ b.maxBytes ∧
      b' = { b with rows := b.rows ++ [row], currentBytes := b.charged row minimum } := by
  obtain ⟨_, hr, h⟩ := bind_eq_ok.mp h
  replace h := after_check h
  obtain ⟨hb, h⟩ := guard_eq_ok.mp h
  replace h := after_check h
  exact ⟨hr, not_lt.mp hb, (Except.ok.inj h).symm⟩

theorem pushAccounted_error (h : b.pushAccounted row minimum credit = .error e) :
    e.code = .resourceExhausted ∨ checkRow b.schema row ≠ .ok () ∨ b.maxRows ≤ b.rows.length ∨
      b.maxBytes < b.charged row minimum := by
  by_contra hn
  simp only [not_or, not_not, not_le, not_lt] at hn
  obtain ⟨hc, hr, hro, hb⟩ := hn
  unfold pushAccounted at h
  simp only [hr, refuseIf, if_neg (not_le.mpr hro), if_neg (not_lt.mpr hb)] at h
  cases hl : b.growLease (b.charged row minimum) credit with
  | error e' =>
    have := growLease_error hl
    simp only [hl] at h
    cases h
    exact hc this
  | ok u =>
    simp only [hl] at h
    cases h

theorem finish_ok {batch : RowBatch} (h : b.finish credit = .ok batch) :
    batch = { schema := b.schema, rows := b.rows } := by
  unfold finish at h
  split_ifs at h
  · replace h := after_check h
    exact (Except.ok.inj h).symm
  · exact (Except.ok.inj h).symm

end RowBatchBuilder

end Sparrow.Model
