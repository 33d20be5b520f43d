import Sparrow.Model.Schema
import Sparrow.Model.Window

/-!
# Operations on values

The part of `sparrow-expr/src/lib.rs` that works on values: arithmetic, comparison,
three-valued logic and casts.

## The model

A `Float64` is its bit pattern. Arithmetic and conversions are those of Lean's `Float`;
equality, order and the tests for zero, NaN and finite values read the bits. What Rust's
library reads and writes as text for a float is a parameter (`Texts`), as are the
third-party libraries the functions call and the JSON codec of `sparrow-formats`:
nothing is assumed about them.
-/

namespace Sparrow.Expression

open Library Model

/-- A parsed date, as far as it is read. -/
structure DateTime where
  year : ℤ
  subsecNanos : ℕ
  micros : Int64
  rfc3339 : String

/-- The libraries that are called. -/
structure Texts where
  /-- `str::parse::<f64>`. -/
  parseF64 : String → Option UInt64
  /-- `f64::to_string`. -/
  displayF64 : UInt64 → String
  /-- `DateTime::parse_from_rfc3339`, in UTC. -/
  parseRfc3339 : String → Option DateTime
  /-- `DateTime::from_timestamp_micros`. -/
  fromTimestampMicros : Int64 → Option DateTime
  base64Encode : Bytes → String
  base64Decode : String → Option Bytes
  sha256 : Bytes → Bytes
  /-- `action::encode_scalar` with a limit. -/
  encodeScalar : Scalar → ℕ → Result Bytes
  /-- `decode_dynamic_json` with the limits of `json_get`. -/
  decodeDynamicJson : Bytes → Result DynamicValue

/-! ### Equality -/

/-- `==` on `f64`. -/
def floatEq (a b : UInt64) : Bool := partialCmp a b == some .eq

mutual

/-- The derived equality of dynamic values. -/
def dynamicEq : DynamicValue → DynamicValue → Bool
  | .null, .null => true
  | .bool a, .bool b => a == b
  | .int64 a, .int64 b => a == b
  | .uInt64 a, .uInt64 b => a == b
  | .float64 a, .float64 b => floatEq a b
  | .utf8 a, .utf8 b => a == b
  | .bytes a, .bytes b => a == b
  | .array a, .array b => elementsEq a b
  | .object a, .object b => entriesEq a b
  | _, _ => false

def elementsEq : List DynamicValue → List DynamicValue → Bool
  | [], [] => true
  | a :: as, b :: bs => dynamicEq a b && elementsEq as bs
  | _, _ => false

def entriesEq : List (String × DynamicValue) → List (String × DynamicValue) → Bool
  | [], [] => true
  | (k, a) :: as, (l, b) :: bs => k == l && dynamicEq a b && entriesEq as bs
  | _, _ => false

end

/-- Integers compare as integers, not as floats: `scalars_eq`. -/
def scalarsEq : Scalar → Scalar → Bool
  | .int64 a, .int64 b => a == b
  | .uInt64 a, .uInt64 b => a == b
  | .int64 a, .uInt64 b => decide (0 ≤ a.toInt ∧ a.toInt = b.toNat)
  | .uInt64 a, .int64 b => decide (0 ≤ b.toInt ∧ (a.toNat : ℤ) = b.toInt)
  | .float64 a, .float64 b => floatEq a b
  | .null, .null => true
  | .bool a, .bool b => a == b
  | .utf8 a, .utf8 b => a == b
  | .bytes a, .bytes b => a == b
  | .timestampMicrosUTC a, .timestampMicrosUTC b => a == b
  | .dynamic a, .dynamic b => dynamicEq a b
  | _, _ => false

/-! ### Order -/

def isFloat : Scalar → Bool
  | .float64 _ => true
  | _ => false

/-- The order of strings: that of their bytes. -/
def cmpUtf8 (a b : String) : Ordering :=
  if utf8Bytes a < utf8Bytes b then .lt else if utf8Bytes a = utf8Bytes b then .eq else .gt

/-- What is not one of the typed pairs: floats against numbers. -/
def cmpMixed (left right : Scalar) : Result (Option Ordering) :=
  match left.asF64, right.asF64 with
  | some a, some b =>
    if isFloat left || isFloat right then .ok (partialCmp a b)
    else mismatch
  | _, _ => mismatch
where
  mismatch : Result (Option Ordering) :=
    let a := left.dataType.display
    let b := right.dataType.display
    .error (.new .typeMismatch s!"cannot compare {a} and {b}")

/-- `none` is unordered, that is NaN: `cmp_scalars`. -/
def cmpScalars : Scalar → Scalar → Result (Option Ordering)
  | .int64 a, .int64 b => .ok (some (compare a.toInt b.toInt))
  | .uInt64 a, .uInt64 b => .ok (some (compare a.toNat b.toNat))
  | .int64 a, .uInt64 b =>
    if 0 ≤ a.toInt then .ok (some (compare a.toInt b.toNat)) else cmpMixed (.int64 a) (.uInt64 b)
  | .uInt64 a, .int64 b =>
    if 0 ≤ b.toInt then .ok (some (compare (a.toNat : ℤ) b.toInt)) else cmpMixed (.uInt64 a) (.int64 b)
  | .timestampMicrosUTC a, .timestampMicrosUTC b => .ok (some (compare a.toInt b.toInt))
  | .timestampMicrosUTC a, .int64 b => .ok (some (compare a.toInt b.toInt))
  | .int64 a, .timestampMicrosUTC b => .ok (some (compare a.toInt b.toInt))
  | .float64 a, .float64 b => .ok (partialCmp a b)
  | .utf8 a, .utf8 b => .ok (some (cmpUtf8 a b))
  | left, right => cmpMixed left right

/-! ### Binary operators -/

inductive BinaryOp where
  | add | sub | mul | div
  | eq | notEq | lt | lte | gt | gte
  | and | or
  deriving DecidableEq, Repr

/-- A representable `i64`. -/
def checkedI64 (z : ℤ) : Option Int64 := if fitsI64 z then some (Int64.ofInt z) else none

/-- A representable `u64`. -/
def checkedU64 (z : ℤ) : Option UInt64 := if 0 ≤ z ∧ z < 2 ^ 64 then some (UInt64.ofNat z.toNat) else none

variable (op : BinaryOp)

/-- `eval_int_arith`. -/
def evalIntArith (left right : Int64) : Result Scalar :=
  if op = .div ∧ right = 0 then .ok .null
  else
    let v := match op with
      | .add => checkedI64 (left.toInt + right.toInt)
      | .sub => checkedI64 (left.toInt - right.toInt)
      | .mul => checkedI64 (left.toInt * right.toInt)
      | .div => checkedI64 (left.toInt.tdiv right.toInt)
      | _ => none
    match v with
    | some v => .ok (.int64 v)
    | none => .error (.new .integerOverflow "checked integer arithmetic overflow")

/-- The same on `u64`. -/
def evalUIntArith (left right : UInt64) : Result Scalar :=
  if op = .div ∧ right = 0 then .ok .null
  else
    let v := match op with
      | .add => checkedU64 (left.toNat + right.toNat)
      | .sub => checkedU64 (left.toNat - right.toNat)
      | .mul => checkedU64 (left.toNat * right.toNat)
      | .div => checkedU64 ((left.toNat / right.toNat : ℕ) : ℤ)
      | _ => none
    match v with
    | some v => .ok (.uInt64 v)
    | none => .error (.new .integerOverflow "checked unsigned integer arithmetic overflow")

def evalFloatArith (left right : Scalar) : Result Scalar :=
  match left.asF64, right.asF64 with
  | some l, some r =>
    if !isFloat left && !isFloat right then .error (.new .typeMismatch "integer arithmetic must not go through f64")
    else match op with
      | .add => .ok (.float64 (floatOp (· + ·) l r))
      | .sub => .ok (.float64 (floatOp (· - ·) l r))
      | .mul => .ok (.float64 (floatOp (· * ·) l r))
      | _ => if isZeroBits r then .ok .null else .ok (.float64 (floatOp (· / ·) l r))
  | _, _ => .error (.new .typeMismatch "arithmetic expects numeric")

/-- `+`, `-`, `*` and `/` on values that are not NULL. -/
def evalArith (left right : Scalar) : Result Scalar :=
  if left.isDynamic || right.isDynamic then
    .error (.new .typeMismatch "dynamic arithmetic requires an explicit CAST/TRY_CAST")
  else match left, right with
    | .int64 l, .int64 r => evalIntArith op l r
    | .uInt64 l, .uInt64 r => evalUIntArith op l r
    | .int64 l, .uInt64 r =>
      if r.toNat < 2 ^ 63 then evalIntArith op l (Int64.ofInt r.toNat) else evalFloatArith op left right
    | .uInt64 l, .int64 r =>
      if l.toNat < 2 ^ 63 then evalIntArith op (Int64.ofInt l.toNat) r else evalFloatArith op left right
    | _, _ => evalFloatArith op left right

/-- `cmp_ord_op`. -/
def cmpOrdOp (ord : Ordering) : Result Bool :=
  match op with
  | .lt => .ok ord.isLT
  | .lte => .ok ord.isLE
  | .gt => .ok ord.isGT
  | .gte => .ok ord.isGE
  | _ => .error (.new .internal "cmp_ord_op on non-compare op")

def truth : Scalar → Result (Option Bool)
  | .bool v => .ok (some v)
  | .null => .ok none
  | _ => .error (.new .typeMismatch "logical op expects bool")

/-- `eval_logic`. -/
def evalLogic (left right : Scalar) : Result Scalar := do
  let lb ← truth left
  let rb ← truth right
  return match op, lb, rb with
    | .and, some false, _ => .bool false
    | .and, _, some false => .bool false
    | .and, some true, some true => .bool true
    | .or, some true, _ => .bool true
    | .or, _, some true => .bool true
    | .or, some false, some false => .bool false
    | _, _, _ => .null

/-- `eval_binary`. -/
def evalBinary (left right : Scalar) : Result Scalar :=
  match op with
  | .and | .or => evalLogic op left right
  | _ =>
    if left.isNull || right.isNull then .ok .null
    else match op with
      | .add | .sub | .mul | .div => evalArith op left right
      | .eq => .ok (.bool (scalarsEq left right))
      | .notEq => .ok (.bool !scalarsEq left right)
      | cmp => do
        match ← cmpScalars left right with
        | some ord => return .bool (← cmpOrdOp cmp ord)
        -- an ordered comparison with NaN is unknown, and unknown is false
        | none => return .bool false

/-! ### Casts -/

/-- `dynamic_from_scalar`. -/
def dynamicFromScalar : Scalar → DynamicValue
  | .null => .null
  | .bool v => .bool v
  | .int64 v => .int64 v
  | .uInt64 v => .uInt64 v
  | .float64 v => .float64 v
  | .utf8 s => .utf8 s
  | .bytes b => .bytes b
  | .timestampMicrosUTC v => .int64 v
  | .dynamic d => d

/-- `str::parse::<i64>`. -/
def parseI64 (s : String) : Option Int64 :=
  let value : Option ℤ := match s.toList with
    | '-' :: cs => (parseDigits cs).map fun n => -(n : ℤ)
    | '+' :: cs => (parseDigits cs).map fun n => (n : ℤ)
    | cs => (parseDigits cs).map fun n => (n : ℤ)
  value.bind checkedI64

/-- `DynamicValue::as_f64`. -/
def dynamicAsF64 : DynamicValue → Option UInt64
  | .int64 v => some v.toFloat.toBits
  | .uInt64 v => some v.toFloat.toBits
  | .float64 v => some v
  | .bool v => some (if v then (1.0 : Float).toBits else (0.0 : Float).toBits)
  | _ => none

variable (texts : Texts)

/-- `cast`. -/
def cast (value : Scalar) (target : DataType) (tryCast : Bool) : Result Scalar :=
  if value.isNull then .ok .null
  else match value, target with
    | .int64 v, .int64 => .ok (.int64 v)
    | .int64 v, .uInt64 => if 0 ≤ v.toInt then .ok (.uInt64 (UInt64.ofNat v.toInt.toNat)) else cannot
    | .int64 v, .float64 => .ok (.float64 v.toFloat.toBits)
    | .int64 v, .utf8 => .ok (.utf8 (toString v.toInt))
    | .uInt64 v, .uInt64 => .ok (.uInt64 v)
    | .uInt64 v, .int64 => if v.toNat < 2 ^ 63 then .ok (.int64 (Int64.ofInt v.toNat)) else cannot
    | .uInt64 v, .float64 => .ok (.float64 v.toFloat.toBits)
    | .float64 v, .float64 => .ok (.float64 v)
    | .float64 v, .int64 => .ok (.int64 (Float.ofBits v).toInt64)
    | .utf8 s, .utf8 => .ok (.utf8 s)
    | .utf8 s, .int64 =>
      match parseI64 s with
      | some v => .ok (.int64 v)
      | none => fail s!"cannot CAST utf8 '{s}' to int64"
    | .utf8 s, .float64 =>
      match texts.parseF64 s with
      | some v => .ok (.float64 v)
      | none => fail s!"cannot CAST utf8 '{s}' to float64"
    | .bool v, .bool => .ok (.bool v)
    | .dynamic (.int64 v), .int64 => .ok (.int64 v)
    | .dynamic (.utf8 s), .utf8 => .ok (.utf8 s)
    | .dynamic d, .float64 =>
      match dynamicAsF64 d with
      | some v => .ok (.float64 v)
      | none => fail "cannot CAST dynamic to float64"
    | v, .dynamic => .ok (.dynamic (dynamicFromScalar v))
    | _, _ => cannot
where
  fail (message : String) : Result Scalar := if tryCast then .ok .null else .error (.new .typeMismatch message)
  cannot : Result Scalar :=
    let a := value.dataType.display
    let b := target.display
    fail s!"cannot CAST {a} to {b}"

end Sparrow.Expression
