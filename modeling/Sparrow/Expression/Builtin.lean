import Sparrow.Expression.Functions
import Sparrow.Expression.Values

/-!
# The additive functions

`eval` of `sparrow-expr/src/builtin.rs`. Every function checks its arity, the size of its
arguments and their types, and most give NULL if an argument is NULL.
-/

namespace Sparrow.Expression

open Library Model

/-- `MAX_BYTES`. -/
def maxBytes : ℕ := 65536

/-- `builtin::invalid` and `collection::error`. -/
def invalid (message : String) : SparrowError := .new .invalidArgument message

/-- `builtin::types`. -/
def typeError (message : String) : SparrowError := .new .typeMismatch message

/-- `builtin::bound`. -/
def builtinBound : SparrowError := .new .boundExceeded "builtin value/output exceeds 64KiB"

/-! ### Text -/

/-- Cut at each occurrence of a separator, from the left; `skip` characters belong to the last one. -/
def splitChars (sep : List Char) : ℕ → List Char → List Char → List (List Char)
  | _, current, [] => [current.reverse]
  | skip + 1, current, _ :: rest => splitChars sep skip current rest
  | 0, current, c :: rest =>
    if sep.isPrefixOf (c :: rest) then current.reverse :: splitChars sep (sep.length - 1) [] rest
    else splitChars sep 0 (c :: current) rest

/-- `str::split` with a separator that is not empty. -/
def splitStr (s sep : String) : List String := (splitChars sep.toList 0 [] s.toList).map String.ofList

/-- `char::is_whitespace`. -/
def isWhitespace (c : Char) : Bool :=
  let n := c.toNat
  (9 ≤ n && n ≤ 13) || n == 0x20 || n == 0x85 || n == 0xA0 || n == 0x1680 || (0x2000 ≤ n && n ≤ 0x200A) ||
    n == 0x2028 || n == 0x2029 || n == 0x202F || n == 0x205F || n == 0x3000

/-- `str::trim`. -/
def trimStr (s : String) : String :=
  String.ofList ((s.toList.dropWhile isWhitespace).reverse.dropWhile isWhitespace).reverse

/-- `str::contains`. -/
def containsStr (s needle : String) : Bool := s.toList.tails.any fun t => needle.toList.isPrefixOf t

/-- `str::len`. -/
def byteLen (s : String) : ℕ := (utf8Bytes s).length

/-- `builtin::text`. -/
def text : Scalar → Result String
  | .utf8 s => .ok s
  | _ => .error (typeError "expected Utf8")

/-- `builtin::integer`. -/
def integer : Scalar → Result Int64
  | .int64 n => .ok n
  | _ => .error (typeError "expected Int64 index/count")

/-- `builtin::bounded_string`. -/
def boundedString (s : String) : Result Scalar := if byteLen s > maxBytes then .error builtinBound else .ok (.utf8 s)

/-- A dynamic primitive becomes a typed one: `unwrap_scalar`. -/
def unwrapScalar : Scalar → Scalar
  | .dynamic .null => .null
  | .dynamic (.bool v) => .bool v
  | .dynamic (.int64 v) => .int64 v
  | .dynamic (.uInt64 v) => .uInt64 v
  | .dynamic (.float64 v) => .float64 v
  | .dynamic (.utf8 v) => .utf8 v
  | other => other

/-! ### The functions -/

/-- `concat`. -/
def evalConcat (args : List Scalar) : Result Scalar := do
  -- the size is only the capacity of the buffer
  let _size ← args.foldlM (fun n a => do
    let s ← text a
    if n + byteLen s ≤ maxBytes then .ok (n + byteLen s) else .error builtinBound) 0
  let parts ← args.mapM text
  boundedString (String.join parts)

/-- `substring`: the start counts from one. -/
def evalSubstring (s start len : Scalar) : Result Scalar := do
  let s ← text s
  let start ← integer start
  let len ← integer len
  refuseIf (start.toInt < 1 ∨ len.toInt < 0)
    (invalid "substring uses 1-based positive start and nonnegative Unicode scalar count")
  boundedString (String.ofList ((s.toList.drop (min (start.toInt - 1).toNat maxBytes)).take
    (min len.toInt.toNat maxBytes)))

/-- `replace`. -/
def evalReplace (s search put : Scalar) : Result Scalar := do
  let s ← text s
  let search ← text search
  let put ← text put
  refuseIf (search = "") (invalid "replace search string must not be empty")
  let parts := splitStr s search
  let count := parts.length - 1
  refuseIf (byteLen s - count * byteLen search + count * byteLen put > maxBytes) builtinBound
  boundedString (put.intercalate parts)

/-- `contains`, `starts_with` and `ends_with`. -/
def evalSearch (test : String → String → Bool) (s needle : Scalar) : Result Scalar := do
  let s ← text s
  let needle ← text needle
  return .bool (test s needle)

/-- `round`, `floor` and `ceil`; integers are what they are. -/
def evalRounding (op : Float → Float) : Scalar → Result Scalar
  | .float64 v =>
    if isFiniteBits v then .ok (.float64 (op (Float.ofBits v)).toBits)
    else .error (invalid "round/floor/ceil require finite input")
  | other => .ok other

/-- The float is in the range of `i64`. -/
def floatFitsI64 (v : UInt64) : Bool :=
  isFiniteBits v && (partialCmp v (-9223372036854775808.0 : Float).toBits != some .lt) &&
    partialCmp v (9223372036854775808.0 : Float).toBits == some .lt

/-- `to_int64`. -/
def evalToInt64 (value : Scalar) : Result Scalar :=
  match unwrapScalar value with
  | .null => .ok .null
  | .int64 v | .timestampMicrosUTC v => .ok (.int64 v)
  | .uInt64 v => if v.toNat < 2 ^ 63 then .ok (.int64 (Int64.ofInt v.toNat)) else .error (invalid "to_int64 overflow")
  | .float64 v =>
    if floatFitsI64 v then .ok (.int64 (Float.ofBits v).toInt64)
    else .error (typeError "to_int64 expects in-range numeric/text scalar; no saturation")
  | .utf8 s =>
    match parseI64 s with
    | some v => .ok (.int64 v)
    | none => .error (invalid "invalid to_int64 text")
  | _ => .error (typeError "to_int64 expects in-range numeric/text scalar; no saturation")

/-- A finite result of `to_float64`. -/
def finiteFloat (v : UInt64) : Result Scalar :=
  if isFiniteBits v then .ok (.float64 v) else .error (invalid "to_float64 requires finite output")

section

variable (texts : Texts)

/-- `to_float64`. -/
def evalToFloat64 (value : Scalar) : Result Scalar :=
  match unwrapScalar value with
  | .null => .ok .null
  | .int64 v | .timestampMicrosUTC v => finiteFloat v.toFloat.toBits
  | .uInt64 v => finiteFloat v.toFloat.toBits
  | .float64 v => finiteFloat v
  | .utf8 s =>
    match texts.parseF64 s with
    | some v => finiteFloat v
    | none => .error (invalid "invalid to_float64 text")
  | _ => .error (typeError "to_float64 expects numeric/text scalar")

/-- `to_string`. -/
def evalToString (value : Scalar) : Result Scalar :=
  match unwrapScalar value with
  | .null => .ok .null
  | .utf8 s => .ok (.utf8 s)
  | .bool v => boundedString (toString v)
  | .int64 v | .timestampMicrosUTC v => boundedString (toString v.toInt)
  | .uInt64 v => boundedString (toString v.toNat)
  | .float64 v => if isFiniteBits v then boundedString (texts.displayF64 v) else .error structured
  | _ => .error structured
where
  structured : SparrowError := typeError "to_string expects finite primitive; use json_stringify for structured values"

/-- The escapes of a JSON pointer token. -/
def unescape : List Char → Result (List Char)
  | [] => .ok []
  | '~' :: '0' :: rest => do return '~' :: (← unescape rest)
  | '~' :: '1' :: rest => do return '/' :: (← unescape rest)
  | '~' :: _ => .error (invalid "invalid JSON pointer escape")
  | c :: rest => do return c :: (← unescape rest)

/-- One token of a pointer; `none` if there is nothing there. -/
def stepInto (value : DynamicValue) (key : List Char) : Result (Option DynamicValue) :=
  match value with
  | .object entries => .ok ((entries.find? fun e => e.1.toList == key).map (·.2))
  | .array items => do
    refuseIf (key = [] ∨ !key.all Char.isDigit ∨ (1 < key.length ∧ key.head? = some '0'))
      (invalid "invalid JSON pointer array index")
    return ((parseDigits key).filter (· ≤ usizeMax)).bind fun i => items[i]?
  | _ => .ok none

def follow (value : DynamicValue) : List (List Char) → Result (Option DynamicValue)
  | [] => .ok (some value)
  | key :: keys => do
    match ← stepInto value key with
    | none => return none
    | some next => follow next keys

/-- `json_get`. -/
def jsonGet (s pointer : String) : Result Scalar := do
  refuseIf (byteLen pointer > 1024 ∨ (pointer ≠ "" ∧ pointer.toList.head? ≠ some '/'))
    (invalid "json_get requires a <=1024 byte JSON pointer")
  let keys ← if pointer = "" then pure [] else (splitChars ['/'] 0 [] pointer.toList.tail).mapM unescape
  let root ← texts.decodeDynamicJson (utf8Bytes s)
  match ← follow root keys with
  | none | some .null => return .null
  | some value =>
    let result := Scalar.dynamic value
    refuseIf (result.residentBytes > maxBytes) builtinBound
    return result

/-- `json_stringify`. -/
def jsonStringify (value : Scalar) : Result Scalar := do
  let bytes ← texts.encodeScalar value maxBytes
  match String.fromUTF8? ⟨bytes.toArray⟩ with
  | some s => boundedString s
  | none => .error (invalid "JSON is not UTF8")

/-- The pairs of `json_object`, `bytes` being charged so far. -/
def jsonPairs (bytes : ℕ) : List Scalar → Result (List (String × DynamicValue))
  | key :: value :: rest => do
    let key ← text key
    let bytes := satAdd bytes (byteLen key + value.residentBytes + 128)
    refuseIf (bytes > maxBytes) builtinBound
    return (key, dynamicFromScalar value) :: (← jsonPairs bytes rest)
  | _ => .ok []

/-- `json_object`. -/
def jsonObject (args : List Scalar) : Result Scalar := do
  if (stepByTwo args).any Scalar.isNull then return .null
  let pairs ← jsonPairs 0 args
  refuseIf (¬ (pairs.map (·.1)).Nodup) (invalid "dynamic object has duplicate keys")
  return .dynamic (.object pairs)

/-- There are digits beyond microseconds. -/
def tooPrecise (s : String) : Bool :=
  (((s.toList.dropWhile (· ≠ '.')).tail.takeWhile Char.isDigit).drop 6).any (· ≠ '0')

/-- `parse_timestamp`. -/
def parseTimestamp (s : Scalar) : Result Scalar := do
  let s ← text s
  refuseIf (byteLen s > 64 ∨ "-00:00".toList.isSuffixOf s.toList)
    (invalid "timestamp requires known offset, bounded RFC3339 text")
  refuseIf (tooPrecise s) (invalid "timestamp precision exceeds microseconds")
  match texts.parseRfc3339 s with
  | none => .error (invalid "invalid RFC3339 timestamp")
  | some parsed =>
    refuseIf (¬ (1 ≤ parsed.year ∧ parsed.year ≤ 9999) ∨ 1000000000 ≤ parsed.subsecNanos)
      (invalid "timestamp outside years 1..9999 or leap second")
    return .timestampMicrosUTC parsed.micros

/-- `format_timestamp`. -/
def formatTimestamp (value : Scalar) : Result Scalar :=
  match value with
  | .int64 n | .timestampMicrosUTC n =>
    match (texts.fromTimestampMicros n).filter fun d => 1 ≤ d.year ∧ d.year ≤ 9999 with
    | some d => boundedString d.rfc3339
    | none => .error (invalid "timestamp outside years 1..9999")
  | _ => .error (typeError "format_timestamp expects timestamp/int64 micros")

/-- What `builtin::eval` charges for an argument. -/
def builtinBytes : Scalar → ℕ
  | .utf8 s => byteLen s
  | .bytes b => b.length
  | .dynamic d => (Scalar.dynamic d).residentBytes
  | _ => 0

/-- The additive functions on arguments that are not NULL. -/
def evalAdditive (f : Function) (args : List Scalar) : Result Scalar :=
  let arg (i : ℕ) := args.getD i .null
  match f with
  | .concat => evalConcat args
  | .substring => evalSubstring (arg 0) (arg 1) (arg 2)
  | .replace => evalReplace (arg 0) (arg 1) (arg 2)
  | .contains => evalSearch containsStr (arg 0) (arg 1)
  | .startsWith => evalSearch (fun s needle => needle.toList.isPrefixOf s.toList) (arg 0) (arg 1)
  | .endsWith => evalSearch (fun s needle => needle.toList.isSuffixOf s.toList) (arg 0) (arg 1)
  | .trim => do boundedString (trimStr (← text (arg 0)))
  | .round => evalRounding Float.round (arg 0)
  | .floor => evalRounding Float.floor (arg 0)
  | .ceil => evalRounding Float.ceil (arg 0)
  | .toInt64 => evalToInt64 (arg 0)
  | .toFloat64 => evalToFloat64 texts (arg 0)
  | .toString => evalToString texts (arg 0)
  | .jsonGet => do jsonGet texts (← text (arg 0)) (← text (arg 1))
  | .parseTimestamp => parseTimestamp texts (arg 0)
  | .formatTimestamp => formatTimestamp texts (arg 0)
  | _ => .error (invalid "unknown builtin")

/-- `builtin::eval`, for what is not a collection function. -/
def evalBuiltin (f : Function) (args : List Scalar) : Result Scalar := do
  f.checkCallArity args.length
  refuseIf (∃ a ∈ args, builtinBytes a > maxBytes) builtinBound
  let _ ← f.signature (args.map Scalar.dataType)
  match f with
  | .jsonStringify => jsonStringify texts (args.getD 0 .null)
  | .jsonObject => jsonObject args
  | f => if args.any Scalar.isNull then return .null else evalAdditive texts f args

end

end Sparrow.Expression
