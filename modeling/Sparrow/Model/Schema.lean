import Sparrow.Model.Scalar

/-!
# Schemas, rows and credits

`sparrow-model/src/types.rs`, `batch.rs` and the part of `memory.rs` that the
window operators call.

## The model

A schema is its fields in order. A row is its values, and a batch is a schema
with rows: the memory lease, the origin span and the output sequence a batch also
carries are never read by the operators.

A `MemoryOwner` is shared with every other stage of the job, so nothing is known
about how much of its budget is free at a given moment. An operator asks it for
credit at fixed places of a call, each asked at most once in a call; `Grants`
gives the answer at each of them, and every statement is for every `Grants`.
-/

namespace Sparrow.Model

open Library

/-! ### Type names -/

mutual

/-- `Display for DataType`. -/
def DataType.display : DataType → String
  | .null => "null"
  | .bool => "bool"
  | .int64 => "int64"
  | .uInt64 => "uint64"
  | .float64 => "float64"
  | .utf8 => "utf8"
  | .bytes => "bytes"
  | .timestampMicrosUTC => "timestamp_micros_utc"
  | .dynamic => "dynamic"
  | .array inner => "array<" ++ inner.display ++ ">"
  | .struct fields => "struct<" ++ ", ".intercalate (displayFields fields) ++ ">"
  | .map key value => "map<" ++ key.display ++ ", " ++ value.display ++ ">"

/-- The fields of a struct type, as `name: type`. -/
def displayFields : List (String × DataType × Bool) → List String
  | [] => []
  | (name, ty, _) :: rest => (name ++ ": " ++ ty.display) :: displayFields rest

end

/-! ### Equality of types -/

mutual

def DataType.same : DataType → DataType → Bool
  | .null, .null => true
  | .bool, .bool => true
  | .int64, .int64 => true
  | .uInt64, .uInt64 => true
  | .float64, .float64 => true
  | .utf8, .utf8 => true
  | .bytes, .bytes => true
  | .timestampMicrosUTC, .timestampMicrosUTC => true
  | .dynamic, .dynamic => true
  | .array a, .array b => a.same b
  | .struct a, .struct b => sameFields a b
  | .map k v, .map k' v' => k.same k' && v.same v'
  | _, _ => false

/-- Structural equality of the fields of a struct type. -/
def sameFields : List (String × DataType × Bool) → List (String × DataType × Bool) → Bool
  | [], [] => true
  | (n, t, u) :: rest, (n', t', u') :: rest' => n == n' && t.same t' && u == u' && sameFields rest rest'
  | _, _ => false

end

mutual

theorem DataType.same_iff : ∀ a b : DataType, a.same b = true ↔ a = b
  | .null, b | .bool, b | .int64, b | .uInt64, b | .float64, b | .utf8, b | .bytes, b
      | .timestampMicrosUTC, b | .dynamic, b => by
    cases b <;> simp [DataType.same]
  | .array a, b => by cases b <;> simp [DataType.same, a.same_iff]
  | .struct a, b => by cases b <;> simp [DataType.same, sameFields_iff a]
  | .map k v, b => by cases b <;> simp [DataType.same, k.same_iff, v.same_iff]

theorem sameFields_iff : ∀ a b : List (String × DataType × Bool), sameFields a b = true ↔ a = b
  | [], b => by cases b <;> simp [sameFields]
  | (n, t, u) :: rest, b => by
    rcases b with _ | ⟨⟨n', t', u'⟩, rest'⟩
    · simp [sameFields]
    · simp [sameFields, t.same_iff, sameFields_iff rest, and_assoc]

end

instance : DecidableEq DataType := fun a b => decidable_of_iff _ (DataType.same_iff a b)

/-! ### Whether a value has a type -/

/-- The number a string of decimal digits spells. -/
def parseDigits (cs : List Char) : Option ℕ :=
  if cs ≠ [] ∧ cs.all Char.isDigit then
    some (cs.foldl (fun n c => 10 * n + (c.toNat - '0'.toNat)) 0)
  else none

/-- `str::parse::<i64>().is_ok()`: an optional sign, digits, and the value in range. -/
def parsesAsI64 (s : String) : Bool :=
  match s.toList with
  | '-' :: cs => (parseDigits cs).any fun n => n ≤ 2 ^ 63
  | '+' :: cs => (parseDigits cs).any fun n => n < 2 ^ 63
  | cs => (parseDigits cs).any fun n => n < 2 ^ 63

/-- `str::parse::<u64>().is_ok()`. -/
def parsesAsU64 (s : String) : Bool :=
  match s.toList with
  | '+' :: cs => (parseDigits cs).any fun n => n < 2 ^ 64
  | cs => (parseDigits cs).any fun n => n < 2 ^ 64

/-- Whether a map key's text is valid for the key type. -/
def validMapKey (key : DataType) (text : String) : Bool :=
  match key with
  | .utf8 | .dynamic => true
  | .int64 => parsesAsI64 text
  | .uInt64 => parsesAsU64 text
  | _ => false

mutual

/-- Whether a dynamic value, at nesting depth `depth`, has a type. -/
def DynamicValue.matchesType (v : DynamicValue) (ty : DataType) (depth : ℕ) : Bool :=
  if depth > 64 then false
  else match v, ty with
    | .null, _ => true
    | _, .dynamic => true
    | .bool _, .bool => true
    | .int64 _, .int64 => true
    | .int64 _, .timestampMicrosUTC => true
    | .uInt64 _, .uInt64 => true
    | .float64 _, .float64 => true
    | .utf8 _, .utf8 => true
    | .bytes _, .bytes => true
    | .array values, .array inner => elementsMatch values inner (depth + 1)
    | .object values, .struct fields =>
      decide (values.map (·.1)).Nodup && values.length == fields.length &&
        entriesMatch values fields (depth + 1) &&
        fields.all fun f => values.any fun e => e.1 == f.1
    | .object values, .map key value =>
      decide (values.map (·.1)).Nodup && mapMatches values key value (depth + 1)
    | _, _ => false

def elementsMatch (values : List DynamicValue) (inner : DataType) (depth : ℕ) : Bool :=
  match values with
  | [] => true
  | v :: rest => v.matchesType inner depth && elementsMatch rest inner depth

/-- Every entry of an object that a struct type names has the field's type, and is
not null where the field is not nullable. -/
def entriesMatch (values : List (String × DynamicValue))
    (fields : List (String × DataType × Bool)) (depth : ℕ) : Bool :=
  match values with
  | [] => true
  | (name, v) :: rest =>
    (fields.all fun f => f.1 != name ||
      ((f.2.2 || !(match v with | .null => true | _ => false)) && v.matchesType f.2.1 depth)) &&
    entriesMatch rest fields depth

/-- Every entry of an object has a valid key and the value type. -/
def mapMatches (values : List (String × DynamicValue)) (key value : DataType) (depth : ℕ) : Bool :=
  match values with
  | [] => true
  | (name, v) :: rest =>
    validMapKey key name && v.matchesType value depth && mapMatches rest key value depth

end

def Scalar.matchesType (v : Scalar) (ty : DataType) : Bool :=
  match v, ty with
  | _, .dynamic => true
  | .null, .null => true
  | .bool _, .bool => true
  | .int64 _, .int64 => true
  | .uInt64 _, .uInt64 => true
  | .float64 _, .float64 => true
  | .utf8 _, .utf8 => true
  | .bytes _, .bytes => true
  | .timestampMicrosUTC _, .timestampMicrosUTC => true
  | .dynamic d, .array inner => d.matchesType (.array inner) 0
  | .dynamic d, .struct fields => d.matchesType (.struct fields) 0
  | .dynamic d, .map key value => d.matchesType (.map key value) 0
  | _, _ => false

/-! ### Schemas, rows and batches -/

/-- A named, typed column. -/
structure Field where
  name : String
  dataType : DataType
  nullable : Bool
  deriving DecidableEq

/-- The columns of a stream, in order. -/
structure Schema where
  fields : List Field
  deriving DecidableEq

namespace Schema

/-- `Schema::validate`, over the names: none empty, none twice. -/
def validate (s : Schema) : Result Unit := go [] s.fields
where
  go (names : List String) : List Field → Result Unit
    | [] => .ok ()
    | f :: rest =>
      if f.name = "" then .error (.new .invalidSchema "field name must not be empty")
      else if f.name ∈ names then
        let name := f.name
        .error (.new .invalidSchema s!"duplicate field name '{name}'")
      else go (f.name :: names) rest

def fieldByName (s : Schema) (name : String) : Option Field := s.fields.find? fun f => f.name = name

/-- The position of the first column of that name. -/
def indexOfName (s : Schema) (name : String) : Option ℕ := s.fields.findIdx? fun f => f.name = name

theorem validate_nodup (schema : Schema) (h : schema.validate = .ok ()) : (schema.fields.map (·.name)).Nodup := by
  have hgo : ∀ (fields : List Field) (names : List String), validate.go names fields = .ok () →
      (fields.map (·.name)).Nodup ∧ ∀ f ∈ fields, f.name ∉ names := by
    intro fields
    induction fields with
    | nil => simp
    | cons f fields ih =>
      intro names h
      unfold validate.go at h
      split_ifs at h with he hm
      obtain ⟨hno, hne⟩ := ih _ h
      refine ⟨List.nodup_cons.mpr ⟨fun hf => ?_, hno⟩, fun g hg => ?_⟩
      · obtain ⟨g, hg, hn⟩ := List.mem_map.mp hf
        exact hne g hg (by simp [hn])
      · rcases List.mem_cons.mp hg with rfl | hg
        · exact hm
        · exact fun hn => hne g hg (by simp [hn])
  exact (hgo schema.fields [] h).1

end Schema

structure Row where
  values : List Scalar

/-- `size_of::<Row>()`. -/
def rowSize : ℕ := 24

/-- Conservative decoded allocation estimate, with the value vector at its exact length. -/
def Row.residentBytes (r : Row) : ℕ :=
  r.values.foldl (fun n v => satAdd n v.residentHeapBytes)
    (satAdd (satAdd rowSize (satMul r.values.length scalarSize)) 32)

structure RowBatch where
  schema : Schema
  rows : List Row

/-- The builder's check of one value against its column. -/
def checkValue (v : Scalar) (f : Field) : Result Unit :=
  let name := f.name
  if v.isNull ∧ ¬ f.nullable then
    .error (.new .typeMismatch s!"field '{name}' is non-nullable but the row has Null")
  else if ¬ v.isNull ∧ ¬ v.matchesType f.dataType then
    let expected := f.dataType.display
    let got := v.dataType.display
    .error (.new .typeMismatch s!"field '{name}' expected {expected}, got {got}")
  else .ok ()

/-- The builder's checks of one row: its width, then each value in order. -/
def checkRow (s : Schema) (r : Row) : Result Unit :=
  if r.values.length ≠ s.fields.length then
    let values := r.values.length
    let fields := s.fields.length
    .error (.new .invalidSchema s!"row has {values} values, schema has {fields} fields")
  else (r.values.zip s.fields).forM fun (v, f) => checkValue v f

/-! ### Rows that fit -/

/-- A value fits a column: its type, and NULL only where it is allowed. -/
def Field.Takes (f : Field) (v : Scalar) : Prop :=
  (v.isNull = true → f.nullable = true) ∧ (v.isNull = false → v.matchesType f.dataType = true)

instance (f : Field) (v : Scalar) : Decidable (Field.Takes f v) := inferInstanceAs (Decidable (_ ∧ _))

/-- A row fits a schema: one value per column, each fitting it. -/
def Row.Fits (schema : Schema) (row : Row) : Prop :=
  row.values.length = schema.fields.length ∧ ∀ p ∈ row.values.zip schema.fields, Field.Takes p.2 p.1

instance (schema : Schema) (row : Row) : Decidable (Row.Fits schema row) := inferInstanceAs (Decidable (_ ∧ _))

theorem checkValue_eq_ok {v : Scalar} {f : Field} : checkValue v f = .ok () ↔ Field.Takes f v := by
  unfold checkValue Field.Takes
  cases v.isNull <;> cases f.nullable <;> cases v.matchesType f.dataType <;> simp

variable {row : Row} {schema : Schema}

theorem checkRow_eq_ok : checkRow schema row = .ok () ↔ Row.Fits schema row := by
  unfold checkRow Row.Fits
  split_ifs with h
  · simp [h]
  · rw [Result.forM_eq_ok]
    simp only [checkValue_eq_ok]
    exact ⟨fun ha => ⟨not_ne_iff.mp h, ha⟩, fun ha => ha.2⟩

theorem Row.Fits.append {input : Schema} (h : Row.Fits input row) {values : List Scalar} {fields : List Field}
    (ha : List.Forall₂ (fun v f => Field.Takes f v) values fields) :
    Row.Fits ⟨input.fields ++ fields⟩ ⟨row.values ++ values⟩ := by
  obtain ⟨hl, ht⟩ := h
  refine ⟨by simp [hl, ha.length_eq], fun p hp => ?_⟩
  rw [List.zip_append hl, List.mem_append] at hp
  rcases hp with hp | hp
  · exact ht p hp
  · obtain ⟨a, b⟩ := p
    exact (List.forall₂_iff_zip.mp ha).2 hp

theorem Row.Fits.takes (h : Row.Fits schema row) {i : ℕ} {f : Field} (hf : schema.fields[i]? = some f) :
    ∃ v, row.values[i]? = some v ∧ Field.Takes f v := by
  obtain ⟨hl, ht⟩ := h
  obtain ⟨hi, rfl⟩ := List.getElem?_eq_some_iff.mp hf
  have hi' : i < row.values.length := hl ▸ hi
  refine ⟨row.values[i], List.getElem?_eq_getElem hi', ht (row.values[i], schema.fields[i]) ?_⟩
  have hz : (row.values.zip schema.fields)[i]? = some (row.values[i], schema.fields[i]) := by
    rw [List.getElem?_zip_eq_some]
    exact ⟨List.getElem?_eq_getElem hi', hf⟩
  exact List.mem_of_getElem? hz

/-! ### Credits -/

/-- The ledger a credit is taken from. -/
inductive CreditKind where
  | reservation
  | retention
  | queue
  deriving DecidableEq, Repr

/-- The places of a call at which an operator asks its memory owner for credit. -/
inductive CreditSite where
  | key
  | columns
  | event
  | scratch
  | grow
  | aggregate
  | rows
  deriving DecidableEq, Repr

/-- What the memory owner answers within one call: at each place, for the ledger and
the bytes asked there, a grant or an error. -/
abbrev Grants := CreditSite → CreditKind → ℕ → Result Unit

def Grants.all : Grants := fun _ _ _ => .ok ()

/-- `finish_rows_metered` on one row: the builder checks it and charges it. -/
def finishRowMetered (schema : Schema) (row : Row) (grants : Grants) : Result RowBatch := do
  checkRow schema row
  grants .rows .reservation (satAdd row.residentBytes 64)
  return { schema, rows := [row] }

theorem finishRowMetered_eq_ok {grants : Grants} {b : RowBatch} (h : finishRowMetered schema row grants = .ok b) :
    b = { schema, rows := [row] } := by
  replace h := after_check (after_check h)
  exact (Except.ok.inj h).symm

end Sparrow.Model
