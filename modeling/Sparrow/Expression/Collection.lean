import Sparrow.Expression.Builtin

/-!
# The collection and encoding functions

`eval` of `sparrow-expr/src/collection.rs`: arrays and objects of at most 1024 items and
64 KiB, splitting, base64, hex and SHA-256.
-/

namespace Sparrow.Expression

open Library Model

/-- `ITEMS`. -/
def maxItems : ℕ := 1024

/-- `collection::bound`. -/
def collectionBound : SparrowError := .new .boundExceeded "collection function exceeds 1024 items or 64KiB"

/-- `collection::array`. -/
def asArray : Scalar → Result (List DynamicValue)
  | .dynamic (.array v) => if v.length ≤ maxItems then .ok v else .error collectionBound
  | _ => .error (invalid "expected array")

/-- `collection::object`. -/
def asObject : Scalar → Result (List (String × DynamicValue))
  | .dynamic (.object v) => if v.length ≤ maxItems then .ok v else .error collectionBound
  | _ => .error (invalid "expected object")

/-- `collection::text`. -/
def asText : Scalar → Result String
  | .utf8 s => .ok s
  | _ => .error (invalid "expected UTF8")

/-- `collection::bytes`. -/
def asBytes : Scalar → Result Bytes
  | .utf8 s => .ok (utf8Bytes s)
  | .bytes b => .ok b
  | _ => .error (invalid "expected UTF8 or bytes")

/-- `collection::index`. -/
def asIndex : Scalar → Result ℕ
  | .int64 n => if 0 ≤ n.toInt then .ok n.toInt.toNat else .error (invalid "index/count must be a nonnegative Int64")
  | _ => .error (invalid "index/count must be a nonnegative Int64")

/-- What is missing or null is NULL: `collection::value`. -/
def element : Option DynamicValue → Scalar
  | none | some .null => .null
  | some v => .dynamic v

/-- `collection::collection`. -/
def collection (v : DynamicValue) : Result Scalar :=
  if (Scalar.dynamic v).residentBytes > maxBytes then .error collectionBound else .ok (.dynamic v)

/-- `collection::make_array`. -/
def makeArray (items : List DynamicValue) : Result Scalar :=
  if items.length > maxItems then .error collectionBound else collection (.array items)

/-- `collection::bounded_text`. -/
def boundedText (s : String) : Result Scalar := if byteLen s > maxBytes then .error collectionBound else .ok (.utf8 s)

def hexDigit (n : ℕ) : Char := "0123456789abcdef".toList.getD n '0'

/-- `collection::hex`. -/
def hex (data : Bytes) : String := String.ofList
    (data.flatMap fun v => [hexDigit (v.toNat / 16), hexDigit (v.toNat % 16)])

def nibble (b : UInt8) : Result ℕ :=
  if 48 ≤ b.toNat ∧ b.toNat ≤ 57 then .ok (b.toNat - 48)
  else if 97 ≤ b.toNat ∧ b.toNat ≤ 102 then .ok (b.toNat - 97 + 10)
  else if 65 ≤ b.toNat ∧ b.toNat ≤ 70 then .ok (b.toNat - 65 + 10)
  else .error (invalid "invalid ASCII hex")

/-- The bytes that pairs of digits spell. -/
def hexBytes : Bytes → Result Bytes
  | a :: b :: rest => do
    let high ← nibble a
    let low ← nibble b
    return UInt8.ofNat (high * 16 + low) :: (← hexBytes rest)
  | _ => .ok []

/-- The loop of `array_join`; `none` if an element is null. -/
def joinParts (sep : String) (s : String) (first : Bool) : List DynamicValue → Result (Option String)
  | [] => .ok (some s)
  | .null :: _ => .ok none
  | .utf8 v :: rest =>
    let extra := byteLen v + if first then 0 else byteLen sep
    if byteLen s + extra > maxBytes then .error collectionBound
    else joinParts sep (s ++ (if first then "" else sep) ++ v) false rest
  | _ :: _ => .error (invalid "array_join needs UTF8 elements")

/-- The loop of `split`, with `count` parts of `resident` bytes before. -/
def splitParts (count resident : ℕ) : List String → Result (List DynamicValue)
  | [] => .ok []
  | s :: rest => do
    let resident := satAdd resident (byteLen s + 96)
    refuseIf (maxItems ≤ count ∨ resident > maxBytes) collectionBound
    return .utf8 s :: (← splitParts (count + 1) resident rest)

/-- An object with the entry of a key replaced, or added at the end. -/
def objectPut (key : String) (value : DynamicValue) : List (String × DynamicValue) → List (String × DynamicValue)
  | [] => [(key, value)]
  | e :: rest => if e.1 = key then (key, value) :: rest else e :: objectPut key value rest

/-- What `collection::eval` charges for an argument. -/
def collectionBytes : Scalar → ℕ
  | .utf8 s => byteLen s
  | .bytes b => b.length
  | v => v.residentBytes

/-- How many arguments make the result NULL. -/
def nullPrefix (f : Function) (argc : ℕ) : ℕ :=
  match f with
  | .arrayAppend => 1
  | .objectSet => 2
  | _ => argc

def evalItems (texts : Texts) (f : Function) (args : List Scalar) : Result Scalar :=
  let arg (i : ℕ) := args.getD i .null
  match f with
  | .arrayLength => do return .int64 (Int64.ofInt (← asArray (arg 0)).length)
  | .arrayGet => do
    let items ← asArray (arg 0)
    let i ← asIndex (arg 1)
    return element items[i]?
  | .arrayContains => do
    let items ← asArray (arg 0)
    return .bool (items.any fun v => dynamicEq v (dynamicFromScalar (arg 1)))
  | .arrayAppend => do
    let items ← asArray (arg 0)
    refuseIf (items.length = maxItems) collectionBound
    makeArray (items ++ [dynamicFromScalar (arg 1)])
  | .arraySlice => do
    let items ← asArray (arg 0)
    let start ← asIndex (arg 1)
    let count ← asIndex (arg 2)
    makeArray ((items.drop (min start items.length)).take count)
  | .arrayConcat => do
    let a ← asArray (arg 0)
    let b ← asArray (arg 1)
    refuseIf (a.length + b.length > maxItems) collectionBound
    makeArray (a ++ b)
  | .arrayJoin => do
    let items ← asArray (arg 0)
    let sep ← asText (arg 1)
    match ← joinParts sep "" true items with
    | none => return .null
    | some s => boundedText s
  | .objectKeys => do makeArray ((← asObject (arg 0)).map fun e => .utf8 e.1)
  | .objectValues => do makeArray ((← asObject (arg 0)).map (·.2))
  | .objectGet => do
    let key ← asText (arg 1)
    let entries ← asObject (arg 0)
    return element ((entries.find? fun e => e.1 = key).map (·.2))
  | .objectHasKey => do
    let key ← asText (arg 1)
    let entries ← asObject (arg 0)
    return .bool (entries.any fun e => e.1 = key)
  | .objectRemove => do
    let key ← asText (arg 1)
    let entries ← asObject (arg 0)
    collection (.object (entries.eraseP fun e => e.1 = key))
  | .objectSet => do
    let key ← asText (arg 1)
    let entries ← asObject (arg 0)
    refuseIf ((∀ e ∈ entries, e.1 ≠ key) ∧ entries.length = maxItems) collectionBound
    collection (.object (objectPut key (dynamicFromScalar (arg 2)) entries))
  | .split => do
    let sep ← asText (arg 1)
    refuseIf (sep = "") (invalid "split separator must not be empty")
    let s ← asText (arg 0)
    makeArray (← splitParts 0 128 (splitStr s sep))
  | .base64Encode => do
    let data ← asBytes (arg 0)
    refuseIf ((data.length + 2) / 3 * 4 > maxBytes) collectionBound
    boundedText (texts.base64Encode data)
  | .base64Decode => do
    match texts.base64Decode (← asText (arg 0)) with
    | some data => return .bytes data
    | none => .error (invalid "invalid canonical padded base64")
  | .hexEncode => do
    let data ← asBytes (arg 0)
    refuseIf (data.length > maxBytes / 2) collectionBound
    boundedText (hex data)
  | .hexDecode => do
    let s ← asText (arg 0)
    refuseIf (byteLen s % 2 ≠ 0) (invalid "hex length must be even")
    return .bytes (← hexBytes (utf8Bytes s))
  | .sha256 => do boundedText (hex (texts.sha256 (← asBytes (arg 0))))
  | _ => .error (invalid "unknown collection function")

/-- `collection::eval`. -/
def evalCollection (texts : Texts) (f : Function) (args : List Scalar) : Result Scalar := do
  f.checkCallArity args.length
  refuseIf (∃ a ∈ args, collectionBytes a > maxBytes) collectionBound
  let _ ← f.signature (args.map Scalar.dataType)
  if (args.take (nullPrefix f args.length)).any Scalar.isNull then return .null else evalItems texts f args

end Sparrow.Expression
