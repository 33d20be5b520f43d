import Sparrow.Model.Schema

/-!
# The functions of the expression language

`sparrow-expr/src/semantics.rs` and the signatures of `builtin.rs` and
`collection.rs`: which functions there are, how many arguments they take, which
argument types they take and which type they give.

## The model

A function is a constructor of `Function`; `Function.ofName` is the lookup by name, which
ignores ASCII case. What the table says about allocation, work and null policy is text
that no function reads.
-/

namespace Sparrow.Expression

open Model

inductive Function where
  | arrayLength | arrayGet | arrayContains | arrayAppend | arraySlice | arrayConcat | arrayJoin
  | objectKeys | objectValues | objectGet | objectHasKey | objectRemove | objectSet
  | split | base64Encode | base64Decode | hexEncode | hexDecode | sha256
  | concat | substring | replace | contains | startsWith | endsWith | trim
  | round | floor | ceil | toInt64 | toFloat64 | toString
  | jsonGet | jsonObject | jsonStringify | parseTimestamp | formatTimestamp
  | abs | lower | upper | length | charLength | coalesce | nullif | greatest | least
  deriving DecidableEq, Repr

/-- An entry of the table. -/
structure FunctionSemantics where
  name : String
  minArgs : ℕ
  maxArgs : Option ℕ

namespace Function

def semantics : Function → FunctionSemantics
  | .arrayLength => ⟨"array_length", 1, some 1⟩
  | .arrayGet => ⟨"array_get", 2, some 2⟩
  | .arrayContains => ⟨"array_contains", 2, some 2⟩
  | .arrayAppend => ⟨"array_append", 2, some 2⟩
  | .arraySlice => ⟨"array_slice", 3, some 3⟩
  | .arrayConcat => ⟨"array_concat", 2, some 2⟩
  | .arrayJoin => ⟨"array_join", 2, some 2⟩
  | .objectKeys => ⟨"object_keys", 1, some 1⟩
  | .objectValues => ⟨"object_values", 1, some 1⟩
  | .objectGet => ⟨"object_get", 2, some 2⟩
  | .objectHasKey => ⟨"object_has_key", 2, some 2⟩
  | .objectRemove => ⟨"object_remove", 2, some 2⟩
  | .objectSet => ⟨"object_set", 3, some 3⟩
  | .split => ⟨"split", 2, some 2⟩
  | .base64Encode => ⟨"base64_encode", 1, some 1⟩
  | .base64Decode => ⟨"base64_decode", 1, some 1⟩
  | .hexEncode => ⟨"hex_encode", 1, some 1⟩
  | .hexDecode => ⟨"hex_decode", 1, some 1⟩
  | .sha256 => ⟨"sha256", 1, some 1⟩
  | .concat => ⟨"concat", 2, some 16⟩
  | .substring => ⟨"substring", 3, some 3⟩
  | .replace => ⟨"replace", 3, some 3⟩
  | .contains => ⟨"contains", 2, some 2⟩
  | .startsWith => ⟨"starts_with", 2, some 2⟩
  | .endsWith => ⟨"ends_with", 2, some 2⟩
  | .trim => ⟨"trim", 1, some 1⟩
  | .round => ⟨"round", 1, some 1⟩
  | .floor => ⟨"floor", 1, some 1⟩
  | .ceil => ⟨"ceil", 1, some 1⟩
  | .toInt64 => ⟨"to_int64", 1, some 1⟩
  | .toFloat64 => ⟨"to_float64", 1, some 1⟩
  | .toString => ⟨"to_string", 1, some 1⟩
  | .jsonGet => ⟨"json_get", 2, some 2⟩
  | .jsonObject => ⟨"json_object", 2, some 16⟩
  | .jsonStringify => ⟨"json_stringify", 1, some 1⟩
  | .parseTimestamp => ⟨"parse_timestamp", 1, some 1⟩
  | .formatTimestamp => ⟨"format_timestamp", 1, some 1⟩
  | .abs => ⟨"abs", 1, some 1⟩
  | .lower => ⟨"lower", 1, some 1⟩
  | .upper => ⟨"upper", 1, some 1⟩
  | .length => ⟨"length", 1, some 1⟩
  | .charLength => ⟨"char_length", 1, some 1⟩
  | .coalesce => ⟨"coalesce", 1, none⟩
  | .nullif => ⟨"nullif", 2, some 2⟩
  | .greatest => ⟨"greatest", 1, none⟩
  | .least => ⟨"least", 1, none⟩

/-- `FUNCTIONS`. -/
def all : List Function :=
  [.arrayLength, .arrayGet, .arrayContains, .arrayAppend, .arraySlice, .arrayConcat, .arrayJoin, .objectKeys,
    .objectValues, .objectGet, .objectHasKey, .objectRemove, .objectSet, .split, .base64Encode, .base64Decode,
    .hexEncode, .hexDecode, .sha256, .concat, .substring, .replace, .contains, .startsWith, .endsWith, .trim, .round,
    .floor, .ceil, .toInt64, .toFloat64, .toString, .jsonGet, .jsonObject, .jsonStringify, .parseTimestamp,
    .formatTimestamp, .abs, .lower, .upper, .length, .charLength, .coalesce, .nullif, .greatest, .least]

end Function

/-- `str::to_ascii_lowercase`. -/
def toAsciiLowercase (s : String) : String := String.ofList (s.toList.map Char.toLower)

/-- `str::to_ascii_uppercase`. -/
def toAsciiUppercase (s : String) : String := String.ofList (s.toList.map Char.toUpper)

namespace Function

/-- `semantics::function`. -/
def ofName (name : String) : Option Function := all.find? fun f => f.semantics.name == toAsciiLowercase name

/-- `collection::contains`. -/
def isCollection : Function → Bool
  | .arrayLength | .arrayGet | .arrayContains | .arrayAppend | .arraySlice | .arrayConcat | .arrayJoin => true
  | .objectKeys | .objectValues | .objectGet | .objectHasKey | .objectRemove | .objectSet => true
  | .split | .base64Encode | .base64Decode | .hexEncode | .hexDecode | .sha256 => true
  | _ => false

/-- `builtin::contains`. -/
def isBuiltin : Function → Bool
  | .concat | .substring | .replace | .contains | .startsWith | .endsWith | .trim => true
  | .round | .floor | .ceil | .toInt64 | .toFloat64 | .toString => true
  | .jsonGet | .jsonObject | .jsonStringify | .parseTimestamp | .formatTimestamp => true
  | f => f.isCollection

/-- `check_call_arity` on a function of the table. -/
def checkCallArity (f : Function) (argc : ℕ) : Result Unit :=
  let name := f.semantics.name
  let least := f.semantics.minArgs
  let expected := match f.semantics.maxArgs with
    | some most => if most = least then s!"exactly {most}" else s!"{least}..={most}"
    | none => s!"at least {least}"
  refuseIf (argc < least ∨ f.semantics.maxArgs.any fun most => argc > most)
    (.new .invalidArgument s!"{name} argument count {argc}; expected {expected}")

end Function

/-! ### Signatures -/

/-- `builtin::text_type` and `collection::text_type`. -/
def textType : DataType → Bool
  | .utf8 | .null => true
  | _ => false

/-- `builtin::numeric`. -/
def numeric : DataType → Bool
  | .int64 | .uInt64 | .float64 | .null => true
  | _ => false

/-- `collection::array_type`. -/
def arrayType : DataType → Bool
  | .array _ | .dynamic | .null => true
  | _ => false

/-- `collection::object_type`. -/
def objectType : DataType → Bool
  | .map _ _ | .struct _ | .dynamic | .null => true
  | _ => false

/-- `collection::integer_type`. -/
def integerType : DataType → Bool
  | .int64 | .null => true
  | _ => false

/-- Every second element, from the first one on. -/
def stepByTwo {α : Type} : List α → List α
  | [] => []
  | [a] => [a]
  | a :: _ :: rest => a :: stepByTwo rest

namespace Function

/-- The arguments fit, and the type of the result: `collection::signature`. -/
def collectionTypes (f : Function) (t : List DataType) : Bool × DataType :=
  let arg (i : ℕ) := t.getD i .null
  match f with
  | .arrayLength => (arrayType (arg 0), .int64)
  | .arrayGet => (arrayType (arg 0) && integerType (arg 1), .dynamic)
  | .arrayContains => (arrayType (arg 0), .bool)
  | .arrayAppend => (arrayType (arg 0), .dynamic)
  | .arraySlice => (arrayType (arg 0) && integerType (arg 1) && integerType (arg 2), .dynamic)
  | .arrayConcat => (arrayType (arg 0) && arrayType (arg 1), .dynamic)
  | .arrayJoin => (arrayType (arg 0) && textType (arg 1), .utf8)
  | .objectKeys | .objectValues => (objectType (arg 0), .dynamic)
  | .objectGet | .objectRemove | .objectSet => (objectType (arg 0) && textType (arg 1), .dynamic)
  | .objectHasKey => (objectType (arg 0) && textType (arg 1), .bool)
  | .split => (textType (arg 0) && textType (arg 1), .dynamic)
  | .base64Decode | .hexDecode => (textType (arg 0), .bytes)
  | _ => (match arg 0 with | .utf8 | .bytes | .null => true | _ => false, .utf8)

/-- The arguments fit, and the type of the result: `builtin::signature`, for what is not a collection function. -/
def builtinTypes (f : Function) (args : List DataType) : Bool × DataType :=
  let first := args.getD 0 .null
  match f with
  | .concat | .replace => (args.all textType, .utf8)
  | .substring => (textType first && args.tail.all integerType, .utf8)
  | .contains | .startsWith | .endsWith => (args.all textType, .bool)
  | .trim => (textType first, .utf8)
  | .round | .floor | .ceil => (numeric first, if first = .null then .float64 else first)
  | .toInt64 => (numeric first || first = .utf8 || first = .dynamic || first = .timestampMicrosUTC, .int64)
  | .toFloat64 => (numeric first || first = .utf8 || first = .dynamic || first = .timestampMicrosUTC, .float64)
  | .toString =>
    (numeric first || first = .utf8 || first = .bool || first = .timestampMicrosUTC || first = .dynamic, .utf8)
  | .jsonGet => (args.all textType, .dynamic)
  | .jsonObject => (args.length % 2 == 0 && (stepByTwo args).all textType, .dynamic)
  | .jsonStringify => (true, .utf8)
  | .parseTimestamp => (textType first, .timestampMicrosUTC)
  | _ => (integerType first || first = .timestampMicrosUTC, .utf8)

/-- `builtin::signature`. -/
def signature (f : Function) (args : List DataType) : Result DataType := do
  f.checkCallArity args.length
  if f.isCollection then
    let (valid, out) := f.collectionTypes args
    refuseIf (!valid) (.new .typeMismatch "collection function argument types do not match")
    return out
  else
    let (valid, out) := f.builtinTypes args
    refuseIf (!valid) (.new .typeMismatch "builtin argument types or key/value arity mismatch")
    return out

end Function

end Sparrow.Expression
