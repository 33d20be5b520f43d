import Sparrow.Connectors.Resp
import Sparrow.Model.Schema
import Sparrow.Model.StateKey

/-!
# The keys of a Redis lookup

`sparrow-connectors/src/redis/template.rs` and the requests of `lookup.rs`: the key of a
tuple is a template with its columns filled in, and a batch of tuples is one command each.

## What is proved

In a template that the lookup accepts, a column is the last part or stands before a literal
(`scan_alternates`), whose first byte its values avoid. So what a column was filled with is
what stands before that byte (`write_inj`), for every column, and the text of a value
determines it among those of its type (`scalarText_inj`).

The text of a float is the library's (`float`); no key has one.
-/

namespace Sparrow.Connectors.RedisKeys

open Library Model Resp List

/-! ### Templates -/

/-- `Part`. -/
inductive Part where
  | lit (text : String)
  | col (name : String)
  deriving DecidableEq

/-- `err`. -/
def err (message : String) : SparrowError := .new .invalidArgument message

/-- Where the parser stands: behind an opening or a closing brace, the next character decides. -/
inductive Mode where
  | outside
  | opened
  | closed
  | inside (name : List Char)

/-- The literal read so far, if there is one. -/
def flush (lit : List Char) : List Part := if lit = [] then [] else [.lit (.ofList lit)]

/-- The loop of `Template::parse`; of the parts before, only whether the last is a column is read. -/
def scan (text : String) (afterCol : Bool) (lit : List Char) : Mode → List Char → Result (List Part)
  | .outside, [] => .ok (flush lit)
  | .outside, c :: cs =>
    if c = '\x7b' then scan text afterCol lit .opened cs
    else if c = '\x7d' then scan text afterCol lit .closed cs
    else scan text afterCol (lit ++ [c]) .outside cs
  | .closed, c :: cs =>
    if c = '\x7d' then scan text afterCol (lit ++ [c]) .outside cs
    else .error (err s!"Redis template `{text}` has an unmatched `\x7d` (write `\x7d\x7d`)")
  | .closed, [] => .error (err s!"Redis template `{text}` has an unmatched `\x7d` (write `\x7d\x7d`)")
  | .opened, c :: cs =>
    if c = '\x7b' then scan text afterCol (lit ++ [c]) .outside cs
    else if c = '\x7d' then .error (err s!"Redis template `{text}` has an empty or over-long placeholder")
    else scan text afterCol lit (.inside [c]) cs
  | .inside name, c :: cs =>
    if c = '\x7b' then .error (err s!"Redis template `{text}` has an unterminated or nested placeholder")
    else if c ≠ '\x7d' then scan text afterCol lit (.inside (name ++ [c])) cs
    else do
      refuseIf ((utf8Bytes (.ofList name)).length > 128)
        (err s!"Redis template `{text}` has an empty or over-long placeholder")
      refuseIf (lit = [] ∧ afterCol = true)
        (err s!"Redis template `{text}`: adjacent placeholders need literal text between them")
      return flush lit ++ .col (.ofList name) :: (← scan text true [] .outside cs)
  | .opened, [] | .inside _, [] =>
    .error (err s!"Redis template `{text}` has an unterminated or nested placeholder")

/-- `Template::columns`. -/
def columns (parts : List Part) : List String :=
  parts.filterMap fun | .lit _ => none | .col name => some name

/-- `char::is_control`. -/
def isControl (c : Char) : Bool := c.val < 0x20 || (0x7f ≤ c.val && c.val < 0xa0)

/-- `Template::parse`. -/
def parse (text : String) : Result (List Part) := do
  refuseIf (text = "" ∨ (utf8Bytes text).length > 1024 ∨ text.toList.any isControl)
    (err "Redis template must be 1..=1024 bytes without control characters")
  let parts ← scan text false [] .outside text.toList
  refuseIf ((columns parts).length > 16) (err "Redis template allows at most 16 placeholders")
  return parts

/-- `CPart`. -/
inductive CPart where
  | lit (bytes : Bytes)
  | col (index : ℕ) (stop : Option UInt8)

/-- `text_type`. -/
def textType (t : DataType) (allowFloat : Bool) : Bool :=
  match t with
  | .utf8 | .bytes | .int64 | .uInt64 | .bool | .timestampMicrosUTC => true
  | .float64 => allowFloat
  | _ => false

/-- `Template::compile`. -/
def compile (schema : Schema) (injective : Bool) : List Part → Result (List CPart)
  | [] => .ok []
  | .lit text :: parts => do return .lit (utf8Bytes text) :: (← compile schema injective parts)
  | .col name :: parts =>
    match schema.indexOfName name, schema.fieldByName name with
    | some index, some field => do
      refuseIf (textType field.dataType false = false) (.new .typeMismatch
        s!"Redis template column `{name}` must be utf8, bytes, int64, uint64, bool or timestamp")
      let stop := match parts.head? with
        | some (.lit text) => if injective then (utf8Bytes text).head? else none
        | _ => none
      return .col index stop :: (← compile schema injective parts)
    | _, _ => .error (.new .invalidSchema s!"Redis template column `{name}` is not in the sink input")

section Rendering

variable (float : UInt64 → Except String Bytes)

def intText (v : ℤ) : Bytes := if v < 0 then 45 :: decimal v.natAbs else decimal v.natAbs

/-- `scalar_text`. -/
def scalarText : Scalar → Except String Bytes
  | .null => .error "NULL value"
  | .utf8 s => .ok (utf8Bytes s)
  | .bytes b => .ok b
  | .bool true => .ok (utf8Bytes "true")
  | .bool false => .ok (utf8Bytes "false")
  | .int64 v | .timestampMicrosUTC v => .ok (intText v.toInt)
  | .uInt64 v => .ok (decimal v.toNat)
  | .float64 bits => float bits
  | .dynamic _ => .error "unsupported value type"

def valueAt (row : Row) (index : ℕ) : Scalar := (row.values[index]?).getD .null

/-- The loop of `Compiled::len`. -/
def lenFrom (row : Row) : ℕ → List CPart → Except String ℕ
  | n, [] => .ok n
  | n, .lit bytes :: parts => lenFrom row (satAdd n bytes.length) parts
  | n, .col index stop :: parts => do
    let text ← scalarText float (valueAt row index)
    if stop.any (text.contains ·) then .error "key value contains the separator that follows it"
    else lenFrom row (satAdd n text.length) parts

/-- `Compiled::len`. -/
def len (parts : List CPart) (row : Row) : Except String ℕ := do
  let n ← lenFrom float row 0 parts
  if n > 4096 then .error "rendered key/channel/field exceeds 4096 bytes" else return n

/-- `Compiled::write`, after `len` has accepted the row, so that every column has a value. -/
def write (parts : List CPart) (row : Row) : Bytes :=
  parts.flatMap fun
    | .lit bytes => bytes
    | .col index _ => (scalarText float (valueAt row index)).toOption.getD []

end Rendering

/-! ### The lookup -/

/-- `RedisLookupFormat`. -/
inductive Format where
  | hash
  | json
  deriving DecidableEq

/-- `RedisLookupConfig`; `target` is what its validation answers. -/
structure Config where
  target : Result Unit
  schema : Schema
  keys : List String
  key : String
  format : Format
  timeoutNanos : ℕ
  poolSize : ℕ

/-- What a `RedisLookup` needs for its requests. -/
structure Lookup where
  schema : Schema
  keySchema : Schema
  keyTpl : List CPart
  valueIndex : List ℕ
  format : Format

/-- `scalar_type`. -/
def scalarType (t : DataType) : Bool := textType t true

def keyFields (schema : Schema) (seen : List ℕ) : List String → Result (List (ℕ × Field))
  | [] => .ok []
  | name :: names =>
    match schema.indexOfName name, schema.fieldByName name with
    | some index, some field => do
      refuseIf (index ∈ seen ∨ field.nullable = true ∨ field.dataType = .float64)
        (.new .invalidSchema "Redis lookup keys must be distinct non-nullable non-float fields")
      return (index, field) :: (← keyFields schema (index :: seen) names)
    | _, _ => .error (.new .invalidSchema "Redis lookup key is not a schema field")

/-- `RedisLookup::shape`. -/
def shape (config : Config) : Result Lookup := do
  config.target
  config.schema.validate.mapError fun _ => .new .invalidSchema "invalid Redis lookup schema"
  let fields := config.schema.fields
  refuseIf (fields = [] ∨ fields.length > 16) (.new .boundExceeded "Redis lookup schema requires 1..16 fields")
  refuseIf (∃ f ∈ fields, (utf8Bytes f.name).length > 128 ∨ scalarType f.dataType = false)
    (.new .invalidSchema "Redis lookup requires scalar fields with names of at most 128 bytes")
  refuseIf (config.keys = [] ∨ config.keys.length > 8) (.new .boundExceeded "Redis lookup requires 1..8 key columns")
  let keys ← keyFields config.schema [] config.keys
  let keySchema : Schema := ⟨keys.map (·.2)⟩
  keySchema.validate.mapError fun _ => .new .invalidSchema "invalid Redis lookup key schema"
  let template ← parse config.key
  refuseIf ((∃ k ∈ config.keys, k ∉ columns template) ∨ ∃ c ∈ columns template, c ∉ config.keys)
    (.new .invalidArgument "Redis lookup key template must use every key column and only key columns")
  let keyTpl ← compile keySchema true template
  let valueIndex := (List.range fields.length).filter fun i => i ∉ keys.map (·.1)
  refuseIf (config.format = .hash ∧ valueIndex = [])
    (.new .invalidSchema "Redis hash lookup needs at least one non-key field")
  refuseIf (¬ (10000000 ≤ config.timeoutNanos ∧ config.timeoutNanos ≤ 5000000000) ∨
    ¬ (1 ≤ config.poolSize ∧ config.poolSize ≤ 16))
    (.new .boundExceeded "Redis lookup timeout must be 10..=5000ms and pool_size 1..=16")
  return { schema := config.schema, keySchema, keyTpl, valueIndex, format := config.format }

namespace Lookup

variable (l : Lookup) (float : UInt64 → Except String Bytes)

/-- `checked_key`. -/
def checkedKey (values : List Scalar) : Result Row := do
  refuseIf (values.length ≠ l.keySchema.fields.length) (.new .invalidSchema "Redis lookup key arity mismatch")
  refuseIf (∃ p ∈ values.zip l.keySchema.fields, p.1.isNull = true ∨ p.1.dataType ≠ p.2.dataType)
    (.new .typeMismatch "Redis lookup key type mismatch")
  return ⟨values⟩

def fieldNames : List Bytes := l.valueIndex.map fun i => utf8Bytes ((l.schema.fields[i]?).elim "" (·.name))

/-- What the command takes besides its key. -/
def commandSize : ℕ :=
  match l.format with
  | .json => arrayHeaderLen 2 + bulkLen 3
  | .hash => l.fieldNames.foldl (fun n f => n + bulkLen f.length) (arrayHeaderLen (2 + l.fieldNames.length) + bulkLen 5)

/-- The loop over the lengths of the keys, which sums the sizes. -/
def totalFrom (total : ℕ) (lens : List ℕ) : ℕ :=
  lens.foldl (fun total len => satAdd (satAdd total l.commandSize) (bulkLen len)) total

/-- The size that is computed up front. -/
def total (lens : List ℕ) : ℕ := l.totalFrom 0 lens

def commandBytes (key : Bytes) (len : ℕ) : Bytes :=
  match l.format with
  | .json => arrayHeader 2 ++ (bulkHeader 3 ++ utf8Bytes "GET\r\n") ++ (bulkHeader len ++ (key ++ crlf))
  | .hash => arrayHeader (2 + l.fieldNames.length) ++ (bulkHeader 5 ++ utf8Bytes "HMGET\r\n") ++
      (bulkHeader len ++ (key ++ crlf)) ++ l.fieldNames.flatMap fun f => bulkHeader f.length ++ (f ++ crlf)

/-- `request`; a `Vec` of `2 ^ 63` bytes is a panic. -/
def request (keys : List Row) : Result Bytes := do
  let lens ← keys.mapM fun key => (len float l.keyTpl key).mapError fun why =>
    .new .invalidArgument s!"Redis lookup key cannot be rendered: {why}"
  refuseIf (l.total lens ≥ 2 ^ 63) (.new .internal "capacity overflow")
  return (keys.zip lens).flatMap fun p => l.commandBytes (write float l.keyTpl p.1) p.2

/-- The command for a key: the arguments of `GET` or `HMGET`. -/
def args (key : Bytes) : List Bytes :=
  match l.format with
  | .json => [utf8Bytes "GET", key]
  | .hash => utf8Bytes "HMGET" :: key :: l.fieldNames

end Lookup

/-! ### Templates that the parser accepts -/

/-- No literal is empty, and no column follows a column; `after` says that one stands before. -/
def Alternates : Bool → List Part → Prop
  | _, [] => True
  | _, .lit text :: parts => text ≠ "" ∧ Alternates false parts
  | after, .col _ :: parts => after = false ∧ Alternates true parts

variable {schema : Schema} {parts : List Part} {after : Bool} {lit : List Char} {name : String}
  {l : Lookup} {row : Row}

theorem flush_alternates (h : lit ≠ [] ∨ Alternates after parts)
    (hf : lit ≠ [] → Alternates false parts) : Alternates after (flush lit ++ parts) := by
  unfold flush
  split_ifs with hl
  · exact h.resolve_left (fun hne => hne hl)
  · exact ⟨by simpa using hl, hf hl⟩

theorem scan_alternates {text : String} {cs : List Char} {mode : Mode}
    (h : scan text after lit mode cs = .ok parts) : Alternates after parts := by
  induction cs generalizing after lit mode parts with
  | nil =>
    cases mode with
    | outside =>
      cases h
      have hf : Alternates after (flush lit ++ []) := flush_alternates (.inr trivial) fun _ => trivial
      simpa using hf
    | _ => cases h
  | cons c cs ih =>
    cases mode with
    | outside =>
      rw [scan] at h
      split_ifs at h <;> exact ih h
    | opened =>
      rw [scan] at h
      split_ifs at h <;> exact ih h
    | closed =>
      rw [scan] at h
      split_ifs at h
      exact ih h
    | inside name =>
      rw [scan] at h
      split_ifs at h
      · exact ih h
      · obtain ⟨-, h⟩ := guard_eq_ok.mp h
        obtain ⟨ha, h⟩ := guard_eq_ok.mp h
        obtain ⟨rest, hr, h⟩ := bind_eq_ok.mp h
        cases h
        refine flush_alternates ?_ fun _ => ⟨rfl, ih hr⟩
        by_cases hl : lit = []
        · exact .inr ⟨by simpa [hl] using ha, ih hr⟩
        · exact .inl hl

/-- Every column is the last part, or stands before a literal that begins with its stop. -/
def Stops : List CPart → Prop
  | [] => True
  | .lit _ :: parts => Stops parts
  | .col _ stop :: parts => (parts = [] ∨ ∃ b l parts', parts = .lit (b :: l) :: parts' ∧ stop = some b) ∧ Stops parts

theorem compile_stops {cs : List CPart} (ha : Alternates after parts)
    (h : compile schema true parts = .ok cs) : Stops cs := by
  induction parts generalizing cs after with
  | nil =>
    cases h
    trivial
  | cons part parts ih =>
    cases part with
    | lit text =>
      obtain ⟨cs', hcs, h⟩ := bind_eq_ok.mp h
      cases h
      exact (ih ha.2 hcs : Stops cs')
    | col name =>
      rw [compile] at h
      split at h
      · obtain ⟨-, h⟩ := guard_eq_ok.mp h
        obtain ⟨cs', hcs, h⟩ := bind_eq_ok.mp h
        cases h
        refine ⟨?_, ih ha.2 hcs⟩
        cases parts with
        | nil =>
          cases hcs
          exact .inl rfl
        | cons next parts =>
          obtain ⟨-, hn⟩ := ha
          cases next with
          | col _ => cases hn.1
          | lit text =>
            obtain ⟨cs'', -, h⟩ := bind_eq_ok.mp hcs
            cases h
            cases hb : utf8Bytes text with
            | nil => exact absurd (utf8Bytes_injective (hb.trans rfl)) hn.1
            | cons b l => exact .inr ⟨b, l, cs'', rfl, by simp [hb]⟩
      · cases h

/-- The columns of a template that was compiled, by their positions. -/
theorem compile_col {cs : List CPart} (h : compile schema true parts = .ok cs)
    (hn : name ∈ columns parts) :
    ∃ index stop field, .col index stop ∈ cs ∧ schema.indexOfName name = some index ∧
      schema.fieldByName name = some field ∧ textType field.dataType false = true := by
  induction parts generalizing cs with
  | nil => cases hn
  | cons part parts ih =>
    cases part with
    | lit text =>
      obtain ⟨cs', hcs, h⟩ := bind_eq_ok.mp h
      cases h
      obtain ⟨index, stop, field, hm, hf⟩ := ih hcs (by simpa [columns] using hn)
      exact ⟨index, stop, field, by simp [hm], hf⟩
    | col name' =>
      rw [compile] at h
      split at h
      · rename_i index field hi hf
        obtain ⟨ht, h⟩ := guard_eq_ok.mp h
        obtain ⟨cs', hcs, h⟩ := bind_eq_ok.mp h
        cases h
        obtain rfl | hs := eq_or_ne name name'
        · exact ⟨index, _, field, mem_cons_self, hi, hf, by simpa using ht⟩
        · obtain ⟨index', stop, field', hm, hr⟩ := ih hcs (by simpa [columns, hs] using hn)
          exact ⟨index', stop, field', by simp [hm], hr⟩
      · cases h

/-! ### What was rendered -/

variable {float : UInt64 → Except String Bytes} {cs : List CPart}

def Fine (float : UInt64 → Except String Bytes) (cs : List CPart) (row : Row) : Prop :=
  ∀ index stop, .col index stop ∈ cs → ∃ text, scalarText float (valueAt row index) = .ok text ∧
    ∀ b, stop = some b → b ∉ text

theorem lenFrom_ok {n m : ℕ} (h : lenFrom float row n cs = .ok m) (hm : m ≤ 4096) :
    m = n + (write float cs row).length ∧ Fine float cs row := by
  have hs : ∀ {a b c : ℕ}, m = satAdd a b + c → m = a + (b + c) := by
    unfold satAdd usizeMax
    omega
  induction cs generalizing n with
  | nil => exact ⟨by simpa [write, eq_comm] using Except.ok.inj h, by simp [Fine]⟩
  | cons c cs ih =>
    cases c with
    | lit bytes =>
      obtain ⟨hl, hf⟩ := ih h
      exact ⟨by simpa [write] using hs hl, fun i stop hi => hf i stop (by simpa using hi)⟩
    | col index stop =>
      rw [lenFrom] at h
      cases ht : scalarText float (valueAt row index) with
      | error e => simp [ht, bind, Except.bind] at h
      | ok text =>
        simp only [ht, bind, Except.bind] at h
        split_ifs at h with hst
        obtain ⟨hl, hf⟩ := ih h
        refine ⟨by simpa [write, ht, Except.toOption] using hs hl, fun i stop' hi => ?_⟩
        rcases List.mem_cons.mp hi with hi | hi
        · cases hi
          exact ⟨text, ht, by rintro b rfl; simpa using hst⟩
        · exact hf i stop' hi

theorem append_cons_inj {b : UInt8} {x y u v : Bytes} (hx : b ∉ x) (hy : b ∉ y) (h : x ++ b :: u = y ++ b :: v) :
    x = y ∧ u = v := by
  obtain ⟨c, rfl, hc⟩ | ⟨c, rfl, hc⟩ := List.append_eq_append_iff.mp h
  · cases c with
    | nil => simpa using hc
    | cons d c => exact absurd (by simp [(cons.inj hc).1]) hy
  · cases c with
    | nil => simpa [eq_comm] using hc
    | cons d c => exact absurd (by simp [(cons.inj hc).1]) hx

/-- **What a column was filled with** can be read off what was rendered. -/
theorem write_inj {a b : Row} (hcs : Stops cs) (ha : Fine float cs a) (hb : Fine float cs b)
    (h : write float cs a = write float cs b) :
    ∀ index stop, .col index stop ∈ cs → ∃ text, scalarText float (valueAt a index) = .ok text ∧
      scalarText float (valueAt b index) = .ok text := by
  induction cs with
  | nil => simp
  | cons c cs ih =>
    have ha' : Fine float cs a := fun i stop hi => ha i stop (by simp [hi])
    have hb' : Fine float cs b := fun i stop hi => hb i stop (by simp [hi])
    cases c with
    | lit bytes =>
      intro index stop hi
      exact ih hcs ha' hb' (append_cancel_left h) index stop (by simpa using hi)
    | col index stop =>
      obtain ⟨s, hs, hsto⟩ := ha index stop (by simp)
      obtain ⟨t, ht, hts⟩ := hb index stop (by simp)
      simp only [write, flatMap_cons, hs, ht, Except.toOption, Option.getD_some] at h
      have hp : s = t ∧ write float cs a = write float cs b := by
        obtain ⟨rfl | ⟨b, l, cs, rfl, rfl⟩, -⟩ := hcs
        · exact ⟨by simpa using h, rfl⟩
        · obtain ⟨hst, hr⟩ := append_cons_inj (hsto b rfl) (hts b rfl) h
          exact ⟨hst, congrArg (b :: ·) hr⟩
      obtain ⟨rfl, hr⟩ := hp
      intro index' stop' hi
      rcases List.mem_cons.mp hi with hi | hi
      · cases hi
        exact ⟨s, hs, ht⟩
      · exact ih hcs.2 ha' hb' hr index' stop' hi

theorem decimal_injective : Function.Injective decimal := by
  intro m
  induction m using Nat.strong_induction_on with
  | _ m ih =>
    intro n h
    have hl : ∀ i < 10, ∀ j < 10, UInt8.ofNat (48 + i) = UInt8.ofNat (48 + j) → i = j := by decide
    rw [decimal, decimal.eq_def n] at h
    obtain ⟨hi, hd⟩ := append_inj' h rfl
    have hmo := hl _ (Nat.mod_lt m (by decide)) _ (Nat.mod_lt n (by decide)) (cons.inj hd).1
    split_ifs at hi with hm hn hn
    · omega
    · exact absurd hi.symm (decimal_digits _).1
    · exact absurd hi (decimal_digits _).1
    · have := ih (m / 10) (by omega) hi
      omega

theorem intText_injective : Function.Injective intText := by
  have hs : ∀ n rest, decimal n ≠ 45 :: rest := fun n rest h =>
    absurd ((decimal_digits n).2 45 (h ▸ mem_cons_self)) (by decide)
  intro v w h
  unfold intText at h
  split_ifs at h with hv hw hw
  · have := decimal_injective (cons.inj h).2
    omega
  · exact absurd h.symm (hs _ _)
  · exact absurd h (hs _ _)
  · have := decimal_injective h
    omega

/-- **The text of a value** determines it among those of its type. -/
theorem scalarText_inj {a b : Scalar} {text : Bytes} (ht : a.dataType = b.dataType)
    (hk : textType a.dataType false = true) (ha : scalarText float a = .ok text) (hb : scalarText float b = .ok text) :
    a = b := by
  -- one case for each type: the two values are of the same
  cases a <;> cases b <;> cases ht <;> simp only [scalarText] at ha hb
  · cases ha
  · rename_i x y
    cases x <;> cases y <;> first
      | rfl
      | exact absurd (utf8Bytes_injective (Except.ok.inj (ha.trans hb.symm))) (by decide)
  · exact congrArg _ (Int64.toInt_inj.mp (intText_injective (Except.ok.inj (ha.trans hb.symm))))
  · exact congrArg _ (UInt64.toNat_inj.mp (decimal_injective (Except.ok.inj (ha.trans hb.symm))))
  · cases hk
  · exact congrArg _ (utf8Bytes_injective (Except.ok.inj (ha.trans hb.symm)))
  · exact congrArg _ (Except.ok.inj (ha.trans hb.symm))
  · exact congrArg _ (Int64.toInt_inj.mp (intText_injective (Except.ok.inj (ha.trans hb.symm))))
  · cases ha

/-! ### Keys -/

theorem fieldByName_name {field : Field} (h : schema.fieldByName name = some field) :
    field.name = name := by
  simpa using find?_some (p := fun f : Field => decide (f.name = name)) h

theorem keyFields_names {seen : List ℕ} {names : List String} {keys : List (ℕ × Field)}
    (h : keyFields schema seen names = .ok keys) : keys.map (·.2.name) = names := by
  induction names generalizing seen keys with
  | nil =>
    cases h
    rfl
  | cons name names ih =>
    rw [keyFields] at h
    split at h
    · rename_i index field _ hf
      obtain ⟨-, h⟩ := guard_eq_ok.mp h
      obtain ⟨keys', hk, h⟩ := bind_eq_ok.mp h
      cases h
      rw [map_cons, ih hk, fieldByName_name hf]
    · cases h

/-- What the shape check leaves of a lookup: its template has every key column, by its position. -/
structure Lookup.Shaped (l : Lookup) : Prop where
  stops : Stops l.keyTpl
  used : ∀ i f, l.keySchema.fields[i]? = some f → ∃ stop, .col i stop ∈ l.keyTpl ∧ textType f.dataType false = true
  values : l.valueIndex.length ≤ 16
  names : ∀ f ∈ l.schema.fields, (utf8Bytes f.name).length ≤ 128

theorem shape_shaped {config : Config} (h : shape config = .ok l) : l.Shaped := by
  obtain ⟨_, -, h⟩ := bind_eq_ok.mp h
  obtain ⟨_, -, h⟩ := bind_eq_ok.mp h
  obtain ⟨hcou, h⟩ := guard_eq_ok.mp h
  obtain ⟨hnam, h⟩ := guard_eq_ok.mp h
  obtain ⟨-, h⟩ := guard_eq_ok.mp h
  obtain ⟨keys, hke, h⟩ := bind_eq_ok.mp h
  obtain ⟨_, hva, h⟩ := bind_eq_ok.mp h
  obtain ⟨template, hpa, h⟩ := bind_eq_ok.mp h
  obtain ⟨hcol, h⟩ := guard_eq_ok.mp h
  obtain ⟨keyTpl, hc, h⟩ := bind_eq_ok.mp h
  obtain ⟨-, h⟩ := guard_eq_ok.mp h
  obtain ⟨-, h⟩ := guard_eq_ok.mp h
  cases h
  obtain ⟨-, hpa⟩ := guard_eq_ok.mp hpa
  obtain ⟨parts, hs, hpa⟩ := bind_eq_ok.mp hpa
  obtain ⟨-, hpa⟩ := guard_eq_ok.mp hpa
  cases hpa
  refine ⟨compile_stops (scan_alternates hs) hc, fun i f hf => ?_,
    ((length_filter_le _ _).trans_eq length_range).trans (by omega),
    fun f hf => by_contra fun hl => hnam ⟨f, hf, .inl (not_le.mp hl)⟩⟩
  have hn : ((keys.map (·.2)).map (·.name)).Nodup := by
    apply Schema.validate_nodup (⟨keys.map (·.2)⟩ : Schema)
    cases hv : Schema.validate ⟨keys.map (·.2)⟩ with
    | error e => simp [hv, Except.mapError] at hva
    | ok _ => rfl
  have hm := mem_of_getElem? hf
  have hna : f.name ∈ config.keys := by
    rw [← keyFields_names hke]
    obtain ⟨k, hk, rfl⟩ := List.mem_map.mp hm
    exact mem_map_of_mem hk
  have hu : f.name ∈ columns template := by
    by_contra hno
    exact hcol (.inl ⟨f.name, hna, hno⟩)
  obtain ⟨index, stop, field, hco, hin, hfi, ht⟩ := compile_col hc hu
  obtain rfl : field = f :=
    inj_on_of_nodup_map hn (mem_of_find?_eq_some hfi) hm (fieldByName_name hfi)
  obtain rfl : index = i := by
    obtain ⟨hlt, hp, -⟩ := List.findIdx?_eq_some_iff_getElem.mp hin
    obtain ⟨hi, rfl⟩ := List.getElem?_eq_some_iff.mp hf
    exact (@Nodup.getElem_inj_iff _ _ hn _ (by simpa using hlt) _ (by simpa using hi)).mp (by simpa using hp)
  exact ⟨stop, hco, ht⟩

theorem checkedKey_ok {values : List Scalar} (h : l.checkedKey values = .ok row) :
    row = ⟨values⟩ ∧ values.length = l.keySchema.fields.length ∧
      ∀ i f, l.keySchema.fields[i]? = some f → (valueAt row i).dataType = f.dataType := by
  obtain ⟨hl, h⟩ := guard_eq_ok.mp h
  obtain ⟨ha, h⟩ := guard_eq_ok.mp h
  cases h
  refine ⟨rfl, by simpa using hl, fun i f hf => ?_⟩
  obtain ⟨hi, rfl⟩ := List.getElem?_eq_some_iff.mp hf
  have hi' : i < values.length := by omega
  by_contra hne
  refine ha ⟨(values[i], l.keySchema.fields[i]), ?_, .inr ?_⟩
  · exact List.mem_iff_getElem.mpr ⟨i, by simp [hi, hi'], by simp⟩
  · simpa [valueAt, hi'] using hne

theorem len_ok {n : ℕ} (h : len float cs row = .ok n) :
    n = (write float cs row).length ∧ n ≤ 4096 ∧ Fine float cs row := by
  unfold len at h
  cases hn : lenFrom float row 0 cs with
  | error e => simp [hn, bind, Except.bind] at h
  | ok m =>
    simp only [hn, bind, Except.bind] at h
    split_ifs at h with hm
    cases h
    obtain ⟨hl, hf⟩ := lenFrom_ok hn (by omega)
    exact ⟨by simpa using hl, by omega, hf⟩

theorem keys_injective (hl : l.Shaped) {a b : List Scalar} {ra rb : Row} {m n : ℕ}
    (ha : l.checkedKey a = .ok ra) (hb : l.checkedKey b = .ok rb) (hla : len float l.keyTpl ra = .ok m)
    (hlb : len float l.keyTpl rb = .ok n) (h : write float l.keyTpl ra = write float l.keyTpl rb) : a = b := by
  obtain ⟨rfl, hle, ht⟩ := checkedKey_ok ha
  obtain ⟨rfl, hlen, hty⟩ := checkedKey_ok hb
  refine ext_getElem (by omega) fun i hi hi' => ?_
  have hf : l.keySchema.fields[i]? = some l.keySchema.fields[i] := by simp [hle ▸ hi]
  obtain ⟨stop, hc, hk⟩ := hl.used i _ hf
  obtain ⟨text, hta, htb⟩ := write_inj hl.stops (len_ok hla).2.2 (len_ok hlb).2.2 h i stop hc
  have hva := ht i _ hf
  have hvb := hty i _ hf
  simpa [valueAt, hi, hi'] using scalarText_inj (hva.trans hvb.symm) (hva ▸ hk) hta htb

/-! ### Requests -/

theorem length_words : (utf8Bytes "GET").length = 3 ∧ (utf8Bytes "HMGET").length = 5 := by decide

theorem length_of_bulkLen {a : Bytes} (h : bulkLen a.length < 2 ^ 63) : (bulk a).length = bulkLen a.length := by
  have := length_bulk a
  unfold usizeMax at this
  omega

theorem Lookup.commandBytes_eq (l : Lookup) (key : Bytes) :
    l.commandBytes key key.length = pushCommand (l.args key) := by
  have hg : utf8Bytes "GET\r\n" = utf8Bytes "GET" ++ crlf := by decide
  have hm : utf8Bytes "HMGET\r\n" = utf8Bytes "HMGET" ++ crlf := by decide
  have hb : (fun f : Bytes => bulkHeader f.length ++ (f ++ crlf)) = bulk := rfl
  unfold commandBytes args
  cases l.format <;>
    simp [pushCommand, bulk, hg, hm, length_words, hb, append_assoc, Nat.add_comm 2]

theorem foldl_bulkLen (fs : List Bytes) (n : ℕ) (h : fs.foldl (fun n f => n + bulkLen f.length) n < 2 ^ 63) :
    fs.foldl (fun n f => n + bulkLen f.length) n = n + (fs.flatMap bulk).length := by
  induction fs generalizing n with
  | nil => rfl
  | cons f fs ih =>
    rw [foldl_cons] at h ⊢
    have hr := ih _ h
    rw [hr, flatMap_cons, length_append, length_of_bulkLen (a := f) (by omega)]
    omega

theorem Lookup.commandSize_eq (l : Lookup) {key : Bytes} (h : l.commandSize + bulkLen key.length < 2 ^ 63) :
    (pushCommand (l.args key)).length = l.commandSize + bulkLen key.length := by
  have hh : ∀ n, (arrayHeader n).length = arrayHeaderLen n := fun n => by
    simp only [arrayHeader, arrayHeaderLen, crlf, ← length_decimal, length_append, length_cons, length_nil]
    omega
  have hk := length_of_bulkLen (a := key) (by omega)
  unfold commandSize args at *
  cases hf : l.format with
  | json =>
    simp only [hf] at h ⊢
    have hg := length_of_bulkLen (a := utf8Bytes "GET") (by rw [length_words.1]; omega)
    rw [length_words.1] at hg
    simp only [pushCommand, flatMap_cons, flatMap_nil, length_append, hh, hg, hk, length_nil,
      show [utf8Bytes "GET", key].length = 2 from rfl]
    omega
  | hash =>
    simp only [hf] at h ⊢
    have hfi := foldl_bulkLen l.fieldNames _ (Nat.lt_of_le_of_lt (Nat.le_add_right _ _) h)
    have hm := length_of_bulkLen (a := utf8Bytes "HMGET") (by rw [length_words.2]; omega)
    rw [length_words.2] at hm
    simp only [pushCommand, flatMap_cons, length_append, hh, hm, hk, hfi, length_cons,
      show l.fieldNames.length + 1 + 1 = 2 + l.fieldNames.length by omega]
    omega

theorem Lookup.total_eq (l : Lookup) (keys : List Bytes) (n : ℕ)
    (h : l.totalFrom n (keys.map List.length) < 2 ^ 63) :
    l.totalFrom n (keys.map List.length) = n + (keys.flatMap fun key => pushCommand (l.args key)).length := by
  induction keys generalizing n with
  | nil => rfl
  | cons key keys ih =>
    simp only [map_cons, totalFrom, foldl_cons] at h ⊢
    have hr := ih _ h
    unfold totalFrom at hr
    rw [hr] at h ⊢
    have hs : ∀ {a b : ℕ}, satAdd a b < 2 ^ 63 → satAdd a b = a + b := by
      unfold satAdd usizeMax
      omega
    have ho := hs (a := satAdd n l.commandSize) (b := bulkLen key.length) (by omega)
    have hi := hs (a := n) (b := l.commandSize) (by omega)
    rw [flatMap_cons, length_append, l.commandSize_eq (by omega)]
    omega

/-- **Requests.** What is built has the size computed up front, and is one command for each key. -/
theorem Lookup.request_eq {keys : List Row} {lens : List ℕ}
    (h : List.Forall₂ (fun key n => len float l.keyTpl key = .ok n) keys lens) (hc : l.total lens < 2 ^ 63) :
    l.request float keys = .ok ((keys.map fun key => l.args (write float l.keyTpl key)).flatMap pushCommand) ∧
      ((keys.map fun key => l.args (write float l.keyTpl key)).flatMap pushCommand).length = l.total lens := by
  have hl : lens = (keys.map (write float l.keyTpl)).map List.length := by
    clear hc
    induction h with
    | nil => rfl
    | cons hn _ ih => rw [ih, (len_ok hn).1, map_cons, map_cons]
  have hm : keys.mapM (fun key => (len float l.keyTpl key).mapError fun why => SparrowError.new .invalidArgument
      s!"Redis lookup key cannot be rendered: {why}") = .ok lens := by
    clear hc hl
    induction h with
    | nil => rfl
    | cons hn _ ih =>
      rw [mapM_cons]
      exact bind_eq_ok.mpr ⟨_, by rw [hn]; rfl, bind_eq_ok.mpr ⟨_, ih, rfl⟩⟩
  have ht := l.total_eq (keys.map (write float l.keyTpl)) 0 (by rw [← hl]; exact hc)
  constructor
  · have hp : ∀ ks : List Row, (ks.zip ((ks.map (write float l.keyTpl)).map List.length)).flatMap
        (fun p => l.commandBytes (write float l.keyTpl p.1) p.2) =
        (ks.map fun key => l.args (write float l.keyTpl key)).flatMap pushCommand := by
      intro ks
      induction ks with
      | nil => rfl
      | cons k ks ih => simp only [map_cons, zip_cons_cons, flatMap_cons, ih, commandBytes_eq]
    rw [← hp, ← hl]
    exact bind_eq_ok.mpr ⟨lens, hm, guard_eq_ok.mpr ⟨not_le.mpr hc, rfl⟩⟩
  · rw [← hl] at ht
    rw [total, ht, flatMap_map, flatMap_map, Nat.zero_add]

/-- The elements a command is read as. -/
def frames (args : List Bytes) : List (Resp.Frame Bytes) := .array (some args.length) :: args.map (.bulk ∘ some)

theorem replies_commands {maxBulk maxArray : ℕ} (cmds : List (List Bytes))
    (hl : (cmds.flatMap pushCommand).length < 2 ^ 63)
    (hf : ∀ c ∈ cmds, c.length ≤ maxArray ∧ ∀ a ∈ c, a.length ≤ maxBulk) :
    replies maxBulk maxArray ((cmds.flatMap frames).length + 1) (cmds.flatMap pushCommand) =
      (cmds.flatMap frames).map .ok ++ [.error .closed] := by
  induction cmds with
  | nil => rfl
  | cons c cmds ih =>
    rw [flatMap_cons, length_append] at hl
    obtain ⟨ha, hb⟩ := hf c (by simp)
    have hc := replies_pushCommand (by omega) ha hb ((cmds.flatMap frames).length + 1) (cmds.flatMap pushCommand)
    rw [ih (by omega) fun c hc => hf c (by simp [hc])] at hc
    have hco : ((c :: cmds).flatMap frames).length + 1 = c.length + ((cmds.flatMap frames).length + 1) + 1 := by
      simp only [flatMap_cons, length_append, frames, length_cons, length_map]
      omega
    rw [hco, flatMap_cons, hc]
    simp [frames]

theorem Lookup.Shaped.args_le (hl : l.Shaped) {key : Bytes} (hk : key.length ≤ 4096) :
    (l.args key).length ≤ 18 ∧ ∀ a ∈ l.args key, a.length ≤ 4096 := by
  have hfie : ∀ f ∈ l.fieldNames, f.length ≤ 4096 := by
    intro f hf
    obtain ⟨i, -, rfl⟩ := List.mem_map.mp hf
    cases hfi : l.schema.fields[i]? with
    | none => simp [utf8Bytes]
    | some f => exact (hl.names f (mem_of_getElem? hfi)).trans (by decide)
  have hc : l.fieldNames.length ≤ 16 := (length_map _).trans_le hl.values
  unfold args
  cases l.format with
  | json => exact ⟨by simp, by simp [length_words, hk]⟩
  | hash => exact ⟨Nat.add_le_add_right hc 2, by simpa [length_words, hk] using hfie⟩

/-- **Lookup keys and requests.** For a lookup that the shape check accepted, key tuples that render to one key are
equal; and a request for accepted tuples has the size that was computed up front and reads as one command for each of
them, in their order, unless that size is more than a vector holds. -/
theorem lookup_keys_and_requests {config : Config} {l : Lookup} (hl : shape config = .ok l)
    (float : UInt64 → Except String Bytes) :
    (∀ a b ra rb m n, l.checkedKey a = .ok ra → l.checkedKey b = .ok rb → len float l.keyTpl ra = .ok m →
      len float l.keyTpl rb = .ok n → write float l.keyTpl ra = write float l.keyTpl rb → a = b) ∧
    ∀ (tuples : List (List Scalar)) (keys : List Row) (lens : List ℕ), tuples.mapM l.checkedKey = .ok keys →
      List.Forall₂ (fun key n => len float l.keyTpl key = .ok n) keys lens →
      2 ^ 63 ≤ l.total lens ∨ ∃ bytes, l.request float keys = .ok bytes ∧ bytes.length = l.total lens ∧
        ∀ maxBulk maxArray, 4096 ≤ maxBulk → 18 ≤ maxArray →
          let expected := keys.flatMap fun key => frames (l.args (write float l.keyTpl key))
          replies maxBulk maxArray (expected.length + 1) bytes = expected.map .ok ++ [.error .closed] := by
  have hs := shape_shaped hl
  refine ⟨fun a b ra rb m n ha hb hla hlb => keys_injective hs ha hb hla hlb, fun tuples keys lens _ hlens => ?_⟩
  rcases le_or_gt (2 ^ 63) (l.total lens) with hca | hca
  · exact .inl hca
  obtain ⟨hre, hsi⟩ := Lookup.request_eq hlens hca
  refine .inr ⟨_, hre, hsi, fun maxBulk maxArray hbu harr => ?_⟩
  have hf : ∀ c ∈ keys.map (fun key => l.args (write float l.keyTpl key)), c.length ≤ maxArray ∧
      ∀ a ∈ c, a.length ≤ maxBulk := by
    intro c hc
    obtain ⟨key, hk, rfl⟩ := List.mem_map.mp hc
    obtain ⟨i, hi, rfl⟩ := List.mem_iff_getElem.mp hk
    obtain ⟨hlen, hle, -⟩ := len_ok (hlens.get hi (hlens.length_eq ▸ hi))
    obtain ⟨har, hal⟩ := hs.args_le (hlen ▸ hle)
    exact ⟨har.trans harr, fun a ha => (hal a ha).trans hbu⟩
  have hr := replies_commands _ (hsi ▸ hca) hf
  rw [flatMap_map] at hr
  exact hr

/-- Labels by site and line, under keys such as `k:a:1`. -/
def labels : Lookup where
  schema := ⟨[⟨"site", .utf8, false⟩, ⟨"line", .utf8, false⟩, ⟨"label", .utf8, true⟩]⟩
  keySchema := ⟨[⟨"site", .utf8, false⟩, ⟨"line", .utf8, false⟩]⟩
  keyTpl := [.lit [107, 58], .col 0 (some 58), .lit [58], .col 1 none]
  valueIndex := [2]
  format := .hash

theorem lookup_keys_and_requests_labels :
    ∃ bytes, labels.request (fun _ => .ok []) [⟨[.utf8 "a", .utf8 "bc"]⟩, ⟨[.utf8 "ab", .utf8 "c"]⟩] = .ok bytes ∧
      bytes.length = 76 ∧
      replies 4096 18 9 bytes = (frames [utf8Bytes "HMGET", utf8Bytes "k:a:bc", utf8Bytes "label"] ++
        frames [utf8Bytes "HMGET", utf8Bytes "k:ab:c", utf8Bytes "label"]).map .ok ++ [.error .closed] := by
  have hl : shape ⟨.ok (), labels.schema, ["site", "line"], "k:\x7bsite\x7d:\x7bline\x7d", .hash, 10000000, 1⟩ =
      .ok labels := rfl
  have ht : labels.total [6, 6] = 76 := by
    have hd : ∀ n < 10, digits n = 1 := fun n hn => by rw [digits, if_pos hn]
    have hla : (utf8Bytes "label").length = 5 := by decide
    simp [Lookup.total, Lookup.totalFrom, Lookup.commandSize, Lookup.fieldNames, labels, bulkLen,
      arrayHeaderLen, satAdd, usizeMax, hd, hla]
  obtain hc | ⟨bytes, hr, hs, hp⟩ := (lookup_keys_and_requests hl fun _ => .ok []).2
    [[.utf8 "a", .utf8 "bc"], [.utf8 "ab", .utf8 "c"]] _ [6, 6] rfl (.cons rfl (.cons rfl .nil))
  · omega
  · exact ⟨bytes, hr, hs.trans ht, hp 4096 18 le_rfl le_rfl⟩

end Sparrow.Connectors.RedisKeys
