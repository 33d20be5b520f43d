import Sparrow.Library.Timeline
import Sparrow.Runtime.WindowOperator

/-!
# Reference tables and their lookup

`sparrow-runtime/src/lookup.rs`, with `LookupSpec` of `sparrow-plan/src/stateful.rs`: a
frozen table under its key columns, a list of such tables with the times they are valid
from, and the operator that extends every row of a batch by columns of the table of the
row's time.

## The model

A row of a table is kept with the proof that it fits the table's schema (`FitRow`), which
`snapshot` checks before it keeps it. The index, a hash map, is never iterated by what is
modelled here, and is a map sorted by the encoded key. A table is immutable, so that the
checksum computed of it is a number of its own. Of a schema the ids are left out, which
`publish` compares too: the model accepts every revision the code accepts.

The versions of a `VersionedReferenceTable` tile the time (`Tiles`), as a field. The other
two sources of the operator, one fixed table and the latest one, are left out.

The operator takes the lock of the table once for every row of a batch. So a batch is three
kinds of steps: `begin` checks it, `select` reads the table for one row, `finish` builds the
output; `World` runs them among the calls of others.
-/

namespace Sparrow.Runtime

open Library Model WindowOperator

/-! ### Rows that fit a schema -/

variable (schema : Schema)

abbrev FitRow := { row : Row // Row.Fits schema row }

/-- What is wrong with the `n`-th row. -/
def rowProblem (row : Row) (n : ℕ) : SparrowError :=
  if row.values.length ≠ schema.fields.length then
    let values := row.values.length
    let fields := schema.fields.length
    .new .invalidSchema s!"reference row {n} has {values} values, schema has {fields} fields"
  else match (row.values.zip schema.fields).find? fun p => ¬ Field.Takes p.2 p.1 with
    | none => .new .internal "the row fits"
    | some (v, f) =>
      let name := f.name
      if v.isNull then .new .typeMismatch s!"reference field '{name}' is non-nullable but row {n} has Null"
      else
        let expected := f.dataType.display
        let got := v.dataType.display
        .new .typeMismatch s!"reference field '{name}' expected {expected}, got {got} in row {n}"

/-- `validate_row`: the row, with what has been checked. -/
def validateRow (row : Row) (n : ℕ) : Result (FitRow schema) :=
  if h : Row.Fits schema row then .ok ⟨row, h⟩ else .error (rowProblem schema row n)

/-! ### Keys -/

/-- `deterministic_key_type`. -/
def deterministicKeyType : DataType → Bool
  | .bool | .int64 | .uInt64 | .float64 | .utf8 | .bytes | .timestampMicrosUTC => true
  | _ => false

/-- `deterministic_key_scalar`. -/
def deterministicKeyScalar : Scalar → Bool
  | .bool _ | .int64 _ | .uInt64 _ | .utf8 _ | .bytes _ | .timestampMicrosUTC _ => true
  | .float64 bits => isFiniteBits bits
  | .null | .dynamic _ => false

/-- The loop of `validate_key_schema`, `seen` being the columns so far. -/
def validateKeys (schema : Schema) (seen : List ℕ) : List (String × ℕ) → Result Unit
  | [] => .ok ()
  | (name, i) :: rest => do
    refuseIf (i ∈ seen) (.new .invalidArgument s!"reference table has duplicate key field '{name}'")
    match schema.fields[i]? with
    | none => .error (.new .invalidSchema "reference table key index is outside schema")
    | some f =>
      let field := f.name
      let type := f.dataType.display
      refuseIf (f.nullable = true) (.new .invalidSchema s!"reference table key field '{field}' must be non-nullable")
      refuseIf (deterministicKeyType f.dataType = false)
        (.new .featureUnavailable s!"reference table key field '{field}' has unsupported type {type}")
      validateKeys schema (i :: seen) rest

/-- `validate_key_schema`. -/
def validateKeySchema (keyFields : List String) (keyIdx : List ℕ) : Result Unit := do
  refuseIf (keyFields = [] ∨ keyIdx.length ≠ keyFields.length)
    (.new .invalidSchema "reference table requires at least one key field")
  validateKeys schema [] (keyFields.zip keyIdx)

/-- `validate_key_values`, of one key column. -/
def validateKeyValue (row : Row) (n : ℕ) (allowNull : Bool) (i : ℕ) : Result Unit :=
  match schema.fields[i]?, row.values[i]? with
  | some f, some v =>
    let name := f.name
    if v.isNull then
      refuseIf (allowNull = false) (.new .typeMismatch s!"reference key field '{name}' is null in row {n}")
    else do
      refuseIf (deterministicKeyScalar v = false)
        (.new .featureUnavailable s!"reference key field '{name}' is not a deterministic scalar")
      let expected := f.dataType.display
      let got := v.dataType.display
      refuseIf (v.matchesType f.dataType = false)
        (.new .typeMismatch s!"reference key field '{name}' expected {expected}, got {got} in row {n}")
  | _, _ => .error (.new .internal "index out of bounds")

def keyOf (idx : List ℕ) (row : Row) : List Scalar := idx.map fun i => row.values.getD i .null

/-! ### Tables -/

structure ReferenceTable where
  name : String
  version : ℕ
  schema : Schema
  keyFields : List String
  index : SortedMap Bytes (FitRow schema)
  checksum : UInt32
  /-- The checksum of what it holds, `table_crc`. -/
  computed : UInt32

namespace ReferenceTable

/-- A word as `{:#010x}` prints it. -/
def hexWord (v : UInt32) : String :=
  let digits := Nat.toDigits 16 v.toNat
  "0x" ++ String.ofList (List.replicate (8 - digits.length) '0' ++ digits)

/-- `verify`. -/
def verify (t : ReferenceTable) : Result Unit :=
  let name := t.name
  let stored := hexWord t.checksum
  let got := hexWord t.computed
  refuseIf (t.computed ≠ t.checksum)
    (.new .codecViolation s!"reference table '{name}' crc32 mismatch (stored {stored} computed {got})")

def indexRows (schema : Schema) (keyIdx : List ℕ) (index : SortedMap Bytes (FitRow schema)) :
    List (FitRow schema) → Result (SortedMap Bytes (FitRow schema))
  | [] => .ok index
  | row :: rest => do
    let key := encodeKeyValues (keyOf keyIdx row.1)
    refuseIf ((index.get? key).isSome = true) (.new .invalidArgument "reference table contains duplicate key")
    indexRows schema keyIdx (index.insert key row) rest

/-- The rows of a snapshot, checked in order. -/
def validateRows (schema : Schema) (keyIdx : List ℕ) (n : ℕ) : List Row → Result (List (FitRow schema))
  | [] => .ok []
  | row :: rest => do
    let fit ← validateRow schema row n
    keyIdx.forM (validateKeyValue schema row n false)
    let more ← validateRows schema keyIdx (n + 1) rest
    return fit :: more

/-- `snapshot_inner`; `lease` is the answer to the credit asked for it, and `crc` the
checksum of the result. -/
def snapshot (name : String) (version : ℕ) (schema : Schema) (keyFields : List String) (rows : List Row)
    (maxRows : ℕ) (crc : UInt32) (lease : Result Unit) : Result ReferenceTable := do
  let count := rows.length
  refuseIf (maxRows < count) (.new .boundExceeded s!"reference table exceeds max_rows {maxRows} (got {count})")
  schema.validate
  let keyIdx ← resolveKeys schema keyFields
  validateKeySchema schema keyFields keyIdx
  let rows ← validateRows schema keyIdx 0 rows
  lease
  let index ← indexRows schema keyIdx .empty rows
  return { name, version, schema, keyFields, index, checksum := crc, computed := crc }

/-- `get`. -/
def get (t : ReferenceTable) (key : List Scalar) : Option (FitRow t.schema) :=
  if key.length ≠ t.keyFields.length then none else t.index.get? (encodeKeyValues key)

end ReferenceTable

/-! ### Versions -/

/-- A table valid on `[validFrom, validTo)`. -/
structure TableVersion where
  version : ℕ
  validFrom : ℤ
  validTo : Option ℤ
  table : ReferenceTable

/-- A version ends, unless it has already. -/
def TableVersion.close (v : TableVersion) (time : ℤ) : TableVersion :=
  { v with validTo := some (v.validTo.getD time) }

structure VersionedReferenceTable where
  name : String
  maxVersions : ℕ
  versions : List TableVersion
  tiles : Tiles TableVersion.validFrom TableVersion.validTo versions

namespace VersionedReferenceTable

/-- `new`. -/
def new (name : String) (maxVersions : ℕ) : Result VersionedReferenceTable := do
  refuseIf (maxVersions = 0) (.new .boundExceeded "versioned table max_versions must be > 0")
  return { name, maxVersions, versions := [], tiles := .nil }

/-- What `publish` asks of a version that comes after `last`. -/
def follows (last : TableVersion) (version : ℕ) (validFrom : ℤ) (table : ReferenceTable) : Result Unit := do
  refuseIf (version ≤ last.version) (.new .invalidArgument "versioned table version must strictly increase")
  refuseIf (validFrom ≤ last.validFrom) (.new .invalidArgument "versioned table valid_from must strictly increase")
  refuseIf (table.schema ≠ last.table.schema ∨ table.keyFields ≠ last.table.keyFields)
    (.new .invalidSchema "versioned table revisions must keep the same schema and key fields")

variable (t : VersionedReferenceTable)

/-- What `publish` asks before it takes the lock. -/
def checkName (table : ReferenceTable) : Result Unit := do
  let own := t.name
  let other := table.name
  refuseIf (table.name ≠ t.name) (.new .invalidArgument s!"versioned table '{own}' != snapshot '{other}'")
  table.verify

def checkBound : Result Unit :=
  let name := t.name
  let bound := t.maxVersions
  refuseIf (t.maxVersions ≤ t.versions.length)
    (.new .boundExceeded s!"versioned table '{name}' exceeds max_versions {bound}")

theorem follows_ok {last : TableVersion} {version : ℕ} {validFrom : ℤ} {table : ReferenceTable} {u : Unit}
    (h : follows last version validFrom table = .ok u) :
    last.version < version ∧ last.validFrom < validFrom ∧ table.schema = last.table.schema ∧
      table.keyFields = last.table.keyFields := by
  obtain ⟨hv, h⟩ := guard_eq_ok.mp h
  obtain ⟨hf, h⟩ := guard_eq_ok.mp h
  have hs := refuseIf_eq_ok.mp h
  rw [not_or, not_ne_iff, not_ne_iff] at hs
  exact ⟨not_le.mp hv, not_le.mp hf, hs⟩

def push (version : ℕ) (validFrom : ℤ) (table : ReferenceTable) : Result VersionedReferenceTable :=
  match hlast : t.versions.getLast? with
  | none => do
    t.checkBound
    return { t with
      versions := [{ version, validFrom, validTo := none, table }]
      tiles := tiles_singleton rfl }
  | some last =>
    match hfollows : follows last version validFrom table with
    | .error e => .error e
    | .ok _ => do
      t.checkBound
      return { t with
        versions := t.versions.dropLast ++ [last.close validFrom, { version, validFrom, validTo := none, table }]
        tiles := by
          obtain ⟨-, hfrom, -⟩ := follows_ok hfollows
          refine Tiles.concat (a := last) ?_ rfl ?_ hfrom rfl
          · rw [List.dropLast_append_getLast? last hlast]
            exact t.tiles
          · rw [TableVersion.close, t.tiles.last last hlast]
            rfl }

/-- `publish`. -/
def publish (version : ℕ) (validFrom : ℤ) (table : ReferenceTable) : Result VersionedReferenceTable := do
  t.checkName table
  t.push version validFrom table

/-- `table_as_of`. -/
def tableAsOf (time : ℤ) : Option ReferenceTable :=
  (asOf TableVersion.validFrom TableVersion.validTo t.versions time).map TableVersion.table

/-- `gc_before`: the versions that are left. -/
def gcBefore (safeWatermark : ℤ) : VersionedReferenceTable where
  name := t.name
  maxVersions := t.maxVersions
  versions := t.versions.filter fun v => v.validTo.all fun stop => safeWatermark < stop
  tiles := by
    obtain ⟨n, hn⟩ := filter_eq_drop t.tiles safeWatermark
    rw [hn]
    exact t.tiles.drop n

/-- `latest`. -/
def latest : Option ReferenceTable := t.versions.getLast?.map TableVersion.table

end VersionedReferenceTable

/-! ### The operator -/

/-- What to look up. -/
structure LookupSpec where
  table : String
  streamKeys : List String
  tableKeys : List String
  keep : List String
  temporal : Bool
  asOfField : Option String

/-- `LookupSpec::validate`. -/
def LookupSpec.validate (spec : LookupSpec) : Result Unit := do
  refuseIf (spec.table = "") (.new .invalidArgument "lookup requires a reference table name")
  refuseIf (spec.streamKeys = [] ∨ spec.streamKeys.length ≠ spec.tableKeys.length)
    (.new .invalidArgument "lookup ON keys must be non-empty and aligned")
  refuseIf (spec.temporal = true ∧ spec.asOfField.getD "" = "")
    (.new .invalidArgument "versioned lookup requires as_of_field (FOR SYSTEM_TIME AS OF event-time)")

/-- `lookup_output_schema`, from the columns `fields` on. -/
def lookupFields (table : Schema) (fields : List Field) : List String → Result (List Field)
  | [] => .ok fields
  | name :: rest =>
    match table.fieldByName name with
    | none => .error (.new .invalidArgument s!"lookup keep column '{name}' missing on table")
    | some f => do
      let column := f.name
      refuseIf ((fields.any fun g => g.name = f.name) = true)
        (.new .invalidSchema s!"lookup output column '{column}' duplicates an existing field")
      lookupFields table (fields ++ [{ f with nullable := true }]) rest

/-- `lookup_output_schema`. -/
def lookupOutputSchema (stream table : Schema) (keep : List String) : Result Schema := do
  let fields ← lookupFields table stream.fields keep
  let schema : Schema := { fields }
  schema.validate
  return schema

structure LookupOperator where
  streamIdx : List ℕ
  keepIdx : List ℕ
  asOfIdx : Option ℕ
  input : Schema
  output : Schema

/-- What the memory owner answers within one batch. -/
structure LookupLeases where
  selection : Result Unit
  scratch : Result Unit
  push : ℕ → Result Unit

namespace LookupOperator

def checkKeyTypes (input table : Schema) : List (ℕ × ℕ) → Result Unit
  | [] => .ok ()
  | (i, k) :: rest =>
    match input.fields[i]?, table.fields[k]? with
    | some f, some g => do
      let stream := f.name
      let streamType := f.dataType.display
      let column := g.name
      let tableType := g.dataType.display
      refuseIf (f.dataType ≠ g.dataType) (.new .typeMismatch
        s!"lookup key type mismatch: stream '{stream}' is {streamType}, table '{column}' is {tableType}")
      checkKeyTypes input table rest
    | _, _ => .error (.new .internal "index out of bounds")

def bindAsOf (spec : LookupSpec) (input : Schema) : Result (Option ℕ) :=
  if spec.temporal then
    let field := spec.asOfField.getD ""
    match input.indexOfName field with
    | none => .error (.new .invalidArgument s!"unknown as-of event-time field '{field}'")
    | some i =>
      match input.fields[i]?.map Field.dataType with
      | some .int64 | some .uInt64 | some .timestampMicrosUTC => .ok (some i)
      | _ => .error (.new .typeMismatch s!"versioned lookup as-of field '{field}' must be event-time")
  else .ok none

def keptColumns (spec : LookupSpec) (schema : Schema) (keyFields : List String) : List String :=
  if spec.keep = [] then (schema.fields.map Field.name).filter fun name => name ∉ keyFields else spec.keep

/-- `new_versioned`. -/
def newVersioned (spec : LookupSpec) (table : VersionedReferenceTable) (input : Schema) : Result LookupOperator := do
  spec.validate
  input.validate
  let name := table.name
  match table.latest with
  | none => .error (.new .invalidArgument s!"versioned table '{name}' has no versions")
  | some latest =>
    let wanted := spec.table
    refuseIf (spec.table ≠ table.name) (.new .invalidArgument s!"lookup table '{wanted}' != snapshot '{name}'")
    table.versions.forM fun v => v.table.verify
    let streamIdx ← resolveKeys input spec.streamKeys
    refuseIf (spec.tableKeys ≠ latest.keyFields)
      (.new .invalidArgument "lookup table_keys must match the snapshot key_fields in order")
    let tableIdx ← resolveKeys latest.schema spec.tableKeys
    validateKeySchema latest.schema spec.tableKeys tableIdx
    checkKeyTypes input latest.schema (streamIdx.zip tableIdx)
    let keep := keptColumns spec latest.schema latest.keyFields
    let keepIdx ← resolveKeys latest.schema keep
    let asOfIdx ← bindAsOf spec input
    let output ← lookupOutputSchema input latest.schema keep
    return { streamIdx, keepIdx, asOfIdx, input, output }

variable (op : LookupOperator)

def rowAsOf (row : Row) : Option ℤ :=
  match op.asOfIdx with
  | none => some i64Max
  | some i => (row.values[i]?).bind asEventTimeMicros

/-- The name of the as-of column, for an error text. -/
def asOfName : String := ((op.asOfIdx.bind fun i => op.input.fields[i]?).map Field.name).getD ""

/-- `validate_input_batch`, of one row. -/
def validateInput (n : ℕ) (row : Row) : Result Unit := do
  let _ ← validateRow op.input row n
  op.streamIdx.forM (validateKeyValue op.input row n true)
  let name := op.asOfName
  refuseIf ((op.rowAsOf row).isNone = true)
    (.new .typeMismatch s!"versioned lookup as-of field '{name}' must be event-time")

/-- `validate_input_batch`, from the `n`-th row on. -/
def validateInputs (n : ℕ) : List Row → Result Unit
  | [] => .ok ()
  | row :: rest => do
    op.validateInput n row
    validateInputs (n + 1) rest

/-- `validate_input_batch`. -/
def validateInputBatch (batch : RowBatch) : Result Unit := do
  refuseIf (batch.schema ≠ op.input)
    (.new .invalidSchema "lookup input batch schema does not match the bound input schema")
  op.validateInputs 0 batch.rows

/-- `select_table`: one look at the versions. -/
def selectTable (table : VersionedReferenceTable) (row : Row) : Result (Option ReferenceTable) :=
  match op.rowAsOf row with
  | none => .error (.new .typeMismatch "versioned lookup as-of field must be event-time")
  | some time => .ok (table.tableAsOf time)

def keptValue (hit : Row) (i : ℕ) : Result Scalar :=
  match hit.values[i]? with
  | some v => .ok v
  | none => .error (.new .invalidSchema "reference table row does not match its schema width")

/-- `output_row`. -/
def outputRow (row : Row) (table : Option ReferenceTable) : Result Row :=
  match table.bind fun t => (t.get (keyOf op.streamIdx row)).map Subtype.val with
  | some hit => do
    let kept ← op.keepIdx.mapM (keptValue hit)
    return ⟨row.values ++ kept⟩
  | none => .ok ⟨row.values ++ List.replicate op.keepIdx.length .null⟩

/-- Build the output, from the `n`-th row on. -/
def buildRows (leases : LookupLeases) (n : ℕ) : List (Row × Option ReferenceTable) → Result (List Row)
  | [] => .ok []
  | (row, table) :: rest => do
    let out ← op.outputRow row table
    checkRow op.output out
    leases.push n
    let more ← buildRows leases (n + 1) rest
    return out :: more

end LookupOperator

/-! ### The operators among the calls of others -/

/-- A batch under way. -/
structure Flight where
  rows : List Row
  selected : List (Option ReferenceTable)
  leases : LookupLeases

structure World where
  table : VersionedReferenceTable
  operators : ℕ → Option LookupOperator
  flights : ℕ → Option Flight

/-- What can happen, each under one lock. -/
inductive LookupCall where
  | publish (version : ℕ) (validFrom : ℤ) (table : ReferenceTable)
  | gcBefore (safeWatermark : ℤ)
  | bind (i : ℕ) (spec : LookupSpec) (input : Schema)
  | begin (i : ℕ) (batch : RowBatch) (leases : LookupLeases)
  | select (i : ℕ)
  | finish (i : ℕ)

/-- What is returned. -/
inductive LookupReport where
  /-- By `publish`. -/
  | published (r : Result Unit)
  /-- By `gc_before`: how many versions are gone. -/
  | collected (n : ℕ)
  | bound (i : ℕ) (r : Result Unit)
  /-- By `on_batch_into`. -/
  | done (i : ℕ) (r : Result (Option (List Row)))

namespace World

/-- The start of a batch: what fails at once or has no rows is answered at once. -/
def begun (op : LookupOperator) (batch : RowBatch) (leases : LookupLeases) : Result (Option Flight) := do
  op.validateInputBatch batch
  if batch.rows = [] then return none
  else
    leases.selection
    return some { rows := batch.rows, selected := [], leases }

def finished (op : LookupOperator) (f : Flight) : Result (Option (List Row)) := do
  f.leases.scratch
  let rows ← op.buildRows f.leases 0 (f.rows.zip f.selected)
  return some rows

/-- One call. An operator has one batch at a time, and a call that finds none to go on with
does nothing. -/
def step (w : World) : LookupCall → List LookupReport × World
  | .publish version validFrom table =>
    match w.table.publish version validFrom table with
    | .error e => ([.published (.error e)], w)
    | .ok table => ([.published (.ok ())], { w with table })
  | .gcBefore safeWatermark =>
    let table := w.table.gcBefore safeWatermark
    ([.collected (w.table.versions.length - table.versions.length)], { w with table })
  | .bind i spec input =>
    match w.operators i with
    | some _ => ([], w)
    | none =>
      match LookupOperator.newVersioned spec w.table input with
      | .error e => ([.bound i (.error e)], w)
      | .ok op => ([.bound i (.ok ())], { w with operators := Function.update w.operators i (some op) })
  | .begin i batch leases =>
    match w.operators i, w.flights i with
    | some op, none =>
      match begun op batch leases with
      | .error e => ([.done i (.error e)], w)
      | .ok none => ([.done i (.ok none)], w)
      | .ok (some f) => ([], { w with flights := Function.update w.flights i (some f) })
    | _, _ => ([], w)
  | .select i =>
    match w.operators i, w.flights i with
    | some op, some f =>
      match f.rows[f.selected.length]? with
      | none => ([], w)
      | some row =>
        match op.selectTable w.table row with
        | .error e => ([.done i (.error e)], { w with flights := Function.update w.flights i none })
        | .ok table =>
          ([], { w with
            flights := Function.update w.flights i (some { f with selected := f.selected ++ [table] }) })
    | _, _ => ([], w)
  | .finish i =>
    match w.operators i, w.flights i with
    | some op, some f =>
      if f.selected.length < f.rows.length then ([], w)
      else ([.done i (finished op f)], { w with flights := Function.update w.flights i none })
    | _, _ => ([], w)

def start (table : VersionedReferenceTable) : World :=
  { table, operators := fun _ => none, flights := fun _ => none }

end World

end Sparrow.Runtime
