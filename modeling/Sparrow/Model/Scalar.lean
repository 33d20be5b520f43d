import Mathlib.Data.List.Sort
import Sparrow.Library.Bytes
import Sparrow.Model.Error

/-!
# Scalars

`sparrow-model/src/scalar.rs` and the type names of `types.rs`: the values a row
holds, their types, their charged size and the byte string that stands for them
in a state key.

## The model

Integers are the fixed-width types of the source. A `Float64` is kept as its
IEEE bit pattern, which is all that the key encoding, the codecs and the type
checks read. `Utf8` is a Lean `String`, whose bytes are valid UTF-8 by
construction, as those of a Rust `str` are. `detach_copy` is the identity on
values and does not appear.

`usize` arithmetic saturates at `2 ^ 64 - 1` (`satAdd`, `satMul`), and the sizes
of the two enums are those of a 64-bit target.
-/

namespace Sparrow.Model

open Library

/-- Logical field type. -/
inductive DataType where
  | null
  | bool
  | int64
  | uInt64
  | float64
  | utf8
  | bytes
  | timestampMicrosUTC
  | dynamic
  | array (inner : DataType)
  | struct (fields : List (String × DataType × Bool))
  | map (key value : DataType)

/-- Heterogeneous JSON-like value. -/
inductive DynamicValue where
  | null
  | bool (v : Bool)
  | int64 (v : Int64)
  | uInt64 (v : UInt64)
  | float64 (bits : UInt64)
  | utf8 (v : String)
  | bytes (v : Bytes)
  | array (values : List DynamicValue)
  | object (values : List (String × DynamicValue))

/-- A value of a row. -/
inductive Scalar where
  | null
  | bool (v : Bool)
  | int64 (v : Int64)
  | uInt64 (v : UInt64)
  | float64 (bits : UInt64)
  | utf8 (v : String)
  | bytes (v : Bytes)
  | timestampMicrosUTC (v : Int64)
  | dynamic (v : DynamicValue)

instance : Inhabited Scalar := ⟨.null⟩

def utf8Bytes (s : String) : Bytes := s.toByteArray.data.toList

/-! ### Saturating `usize` arithmetic -/

/-- `usize::MAX`, which is also `u64::MAX`, on a 64-bit target. -/
def usizeMax : ℕ := 2 ^ 64 - 1

/-- `usize::saturating_add`. -/
def satAdd (a b : ℕ) : ℕ := min (a + b) usizeMax

/-- `usize::saturating_mul`. -/
def satMul (a b : ℕ) : ℕ := min (a * b) usizeMax

/-- `size_of::<Scalar>()` and `size_of::<DynamicValue>()`. -/
def scalarSize : ℕ := 24

/-- `size_of::<(Arc<str>, DynamicValue)>()`. -/
def objectEntrySize : ℕ := 40

/-! ### Resident size -/

mutual

def DynamicValue.residentHeapBytes : DynamicValue → ℕ
  | .utf8 v => satAdd (utf8Bytes v).length 48
  | .bytes v => satAdd v.length 48
  | .array values => residentElements (satAdd 48 (satMul values.length scalarSize)) values
  | .object values => residentEntries (satAdd 48 (satMul values.length objectEntrySize)) values
  | _ => 0

/-- The array's fold, from `n`. -/
def residentElements (n : ℕ) : List DynamicValue → ℕ
  | [] => n
  | x :: rest => residentElements (satAdd n x.residentHeapBytes) rest

/-- The object's fold, from `n`. -/
def residentEntries (n : ℕ) : List (String × DynamicValue) → ℕ
  | [] => n
  | (k, x) :: rest =>
    residentEntries (satAdd (satAdd (satAdd n (utf8Bytes k).length) 48) x.residentHeapBytes) rest

end

namespace Scalar

def residentHeapBytes : Scalar → ℕ
  | .utf8 v => satAdd (utf8Bytes v).length 48
  | .bytes v => satAdd v.length 48
  | .dynamic v => v.residentHeapBytes
  | _ => 0

/-- Conservative resident size of a detached value, including nested heap containers. -/
def residentBytes (v : Scalar) : ℕ := satAdd scalarSize v.residentHeapBytes

def dataType : Scalar → DataType
  | .null => .null
  | .bool _ => .bool
  | .int64 _ => .int64
  | .uInt64 _ => .uInt64
  | .float64 _ => .float64
  | .utf8 _ => .utf8
  | .bytes _ => .bytes
  | .timestampMicrosUTC _ => .timestampMicrosUTC
  | .dynamic _ => .dynamic

def isNull : Scalar → Bool
  | .null => true
  | .dynamic .null => true
  | _ => false

/-- A value of a type only known at run time. -/
def isDynamic : Scalar → Bool
  | .dynamic _ => true
  | _ => false

end Scalar

/-! ### Floats -/

/-- IEEE NaN: an all-ones exponent with a nonzero fraction. -/
def isNaNBits (bits : UInt64) : Bool := bits.toNat % 2 ^ 63 > 0x7ff0000000000000

/-- Neither infinite nor NaN: the exponent is not all ones. -/
def isFiniteBits (bits : UInt64) : Bool := bits.toNat % 2 ^ 63 < 0x7ff0000000000000

def isZeroBits (bits : UInt64) : Bool := bits.toNat % 2 ^ 63 = 0

/-- The order of the floats that are not NaN, as integers. -/
def floatRank (bits : UInt64) : ℤ :=
  if bits.toNat < 2 ^ 63 then bits.toNat else -((bits.toNat - 2 ^ 63 : ℕ) : ℤ)

/-- `f64::partial_cmp`. -/
def partialCmp (a b : UInt64) : Option Ordering :=
  if isNaNBits a || isNaNBits b then none else some (compare (floatRank a) (floatRank b))

/-- An operation of `f64`. -/
def floatOp (op : Float → Float → Float) (a b : UInt64) : UInt64 := (op (Float.ofBits a) (Float.ofBits b)).toBits

/-- `Scalar::as_f64`, as bits. -/
def Scalar.asF64 : Scalar → Option UInt64
  | .int64 v => some v.toFloat.toBits
  | .uInt64 v => some v.toFloat.toBits
  | .float64 v => some v
  | .bool v => some (if v then (1.0 : Float).toBits else (0.0 : Float).toBits)
  | _ => none

/-- `Scalar::is_nan`. -/
def Scalar.isNaN : Scalar → Bool
  | .float64 v => isNaNBits v
  | .dynamic (.float64 v) => isNaNBits v
  | _ => false

/-! ### Key encoding -/

/-- The bits a key holds for a float: signed zero and NaN representations are canonical. -/
def canonicalBits (bits : UInt64) : UInt64 :=
  if isZeroBits bits then 0 else if isNaNBits bits then 0x7ff8000000000000 else bits

def encodeInt64 (v : Int64) : Bytes := 2 :: leBytes 8 v.toUInt64.toNat

/-- Tag 5: the length as `u32`, then the bytes. -/
def encodeUtf8 (v : String) : Bytes := 5 :: leBytes 4 (utf8Bytes v).length ++ utf8Bytes v

/-- Tag 6: the length as `u32`, then the bytes. -/
def encodeBytes (v : Bytes) : Bytes := 6 :: leBytes 4 v.length ++ v

mutual

/-- Structural key encoding of a dynamic value; object entries go in name order. -/
def DynamicValue.encodeKey : DynamicValue → Bytes
  | .null => [0]
  | .bool v => [1, if v then 1 else 0]
  | .int64 v => encodeInt64 v
  | .uInt64 v => 3 :: leBytes 8 v.toNat
  | .float64 bits => 4 :: leBytes 8 (canonicalBits bits).toNat
  | .utf8 v => encodeUtf8 v
  | .bytes v => encodeBytes v
  | .array values => 9 :: leBytes 8 values.length ++ (encodeElements values).flatten
  | .object values =>
    -- `sort_by` is stable, and sorting the encoded pairs by name sorts the pairs
    10 :: leBytes 8 values.length ++
      (((encodeEntries values).insertionSort fun a b => utf8Bytes a.1 ≤ utf8Bytes b.1).map
        fun e => encodeUtf8 e.1 ++ e.2).flatten

def encodeElements : List DynamicValue → List Bytes
  | [] => []
  | v :: rest => v.encodeKey :: encodeElements rest

/-- An object's names with the encodings of their values. -/
def encodeEntries : List (String × DynamicValue) → List (String × Bytes)
  | [] => []
  | (k, v) :: rest => (k, v.encodeKey) :: encodeEntries rest

end

def Scalar.encodeKey : Scalar → Bytes
  | .null => [0]
  | .bool v => [1, if v then 1 else 0]
  | .int64 v => encodeInt64 v
  | .uInt64 v => 3 :: leBytes 8 v.toNat
  | .float64 bits => 4 :: leBytes 8 (canonicalBits bits).toNat
  | .utf8 v => encodeUtf8 v
  | .bytes v => encodeBytes v
  | .timestampMicrosUTC v => 7 :: leBytes 8 v.toUInt64.toNat
  | .dynamic v => 8 :: v.encodeKey

/-- A group key: each value's encoding, closed by `0xff`. -/
def encodeKeyValues (values : List Scalar) : Bytes := values.flatMap fun v => v.encodeKey ++ [0xff]

end Sparrow.Model
