import Sparrow.Model.Scalar

/-!
# The value codec

`sparrow-model/src/scalar.rs`, `encode_value` and `decode_value`: values as they stand in
a checkpoint. The codec keeps the bits of a float; only keys make zeros and NaNs alike.

## What is proved

* `decodeValue_valueBytes` — a value is read back, whatever follows it.

It needs the length of a string to fit the `u32` it is written in (`Scalar.Encodable`).
-/

namespace Sparrow.Model

open Library List

def valueBytes : Scalar → Bytes
  | .float64 bits => 4 :: leBytes 8 bits.toNat
  | v => v.encodeKey

/-- `encode_value`. -/
def encodeValue : Scalar → Result Bytes
  | .dynamic _ =>
    .error (.new .featureUnavailable "Dynamic scalars cannot be snapshotted in V1 aligned checkpoint")
  | v => .ok (valueBytes v)

/-- The next `n` bytes, and the rest. -/
def takeScalar (n : ℕ) (src : Bytes) : Result (Bytes × Bytes) :=
  if src.length < n then .error (.new .codecViolation "truncated scalar in checkpoint snapshot")
  else .ok (src.take n, src.drop n)

/-- `String::from_utf8`. -/
def stringOfUtf8 (bytes : Bytes) : Option String := String.fromUTF8? ⟨bytes.toArray⟩

/-- `decode_value`: a value, and what follows it. -/
def decodeValue : Bytes → Result (Scalar × Bytes)
  | [] => .error (.new .codecViolation "empty scalar in checkpoint snapshot")
  | tag :: src =>
    match tag.toNat with
    | 0 => .ok (.null, src)
    | 1 => do
      let (b, src) ← takeScalar 1 src
      return (.bool (ofLeBytes b ≠ 0), src)
    | 2 => do
      let (b, src) ← takeScalar 8 src
      return (.int64 (UInt64.ofNat (ofLeBytes b)).toInt64, src)
    | 3 => do
      let (b, src) ← takeScalar 8 src
      return (.uInt64 (.ofNat (ofLeBytes b)), src)
    | 4 => do
      let (b, src) ← takeScalar 8 src
      return (.float64 (.ofNat (ofLeBytes b)), src)
    | 5 => do
      let (n, src) ← takeScalar 4 src
      let (bytes, src) ← takeScalar (ofLeBytes n) src
      match stringOfUtf8 bytes with
      | none => .error (.new .codecViolation "utf8 scalar not valid UTF-8")
      | some s => return (.utf8 s, src)
    | 6 => do
      let (n, src) ← takeScalar 4 src
      let (bytes, src) ← takeScalar (ofLeBytes n) src
      return (.bytes bytes, src)
    | 7 => do
      let (b, src) ← takeScalar 8 src
      return (.timestampMicrosUTC (UInt64.ofNat (ofLeBytes b)).toInt64, src)
    | 8 =>
      .error (.new .featureUnavailable "Dynamic scalars cannot be restored from V0.4 experimental checkpoint")
    | other => .error (.new .codecViolation s!"unknown scalar tag {other}")

/-- What the codec can write: no dynamic value, and no string longer than its length field can say. -/
def Scalar.Encodable : Scalar → Prop
  | .utf8 v => (utf8Bytes v).length < 2 ^ 32
  | .bytes v => v.length < 2 ^ 32
  | .dynamic _ => False
  | _ => True

theorem takeScalar_append {n : ℕ} {head : Bytes} (h : head.length = n) (rest : Bytes) :
    takeScalar n (head ++ rest) = .ok (head, rest) := by
  subst h
  simp [takeScalar]

theorem takeScalar_word (v : UInt64) (rest : Bytes) :
    takeScalar 8 (leBytes 8 v.toNat ++ rest) = .ok (leBytes 8 v.toNat, rest) ∧
      UInt64.ofNat (ofLeBytes (leBytes 8 v.toNat)) = v := by
  refine ⟨takeScalar_append (length_leBytes 8 _) rest, ?_⟩
  rw [ofLeBytes_leBytes_of_lt (by simpa using v.toNat_lt)]
  simp

theorem takeScalar_counted {bytes : Bytes} (h : bytes.length < 2 ^ 32) (rest : Bytes) :
    takeScalar 4 (leBytes 4 bytes.length ++ (bytes ++ rest)) = .ok (leBytes 4 bytes.length, bytes ++ rest) ∧
      takeScalar (ofLeBytes (leBytes 4 bytes.length)) (bytes ++ rest) = .ok (bytes, rest) := by
  refine ⟨takeScalar_append (length_leBytes 4 _) _, ?_⟩
  rw [ofLeBytes_leBytes_of_lt (by simpa using h)]
  exact takeScalar_append rfl rest

@[simp] theorem stringOfUtf8_utf8Bytes (s : String) : stringOfUtf8 (utf8Bytes s) = some s := by
  have h : (⟨(utf8Bytes s).toArray⟩ : ByteArray) = s.toByteArray := by simp [utf8Bytes]
  rw [stringOfUtf8, h, String.fromUTF8?, dif_pos s.isValidUTF8]
  rfl

/-- **A value is read back.** -/
theorem decodeValue_valueBytes {v : Scalar} (hv : v.Encodable) (rest : Bytes) :
    decodeValue (valueBytes v ++ rest) = .ok (v, rest) := by
  cases v with
  | null => rfl
  | bool v => cases v <;> simp [valueBytes, Scalar.encodeKey, decodeValue, takeScalar, ofLeBytes,
      bind, Except.bind, pure, Except.pure]
  | int64 v =>
    obtain ⟨ht, hw⟩ := takeScalar_word v.toUInt64 rest
    change (takeScalar 8 (leBytes 8 v.toUInt64.toNat ++ rest) >>= _) = _
    rw [ht]
    change Except.ok (Scalar.int64 _, rest) = _
    rw [hw, Int64.toInt64_toUInt64]
  | uInt64 v =>
    obtain ⟨ht, hw⟩ := takeScalar_word v rest
    change (takeScalar 8 (leBytes 8 v.toNat ++ rest) >>= _) = _
    rw [ht]
    change Except.ok (Scalar.uInt64 _, rest) = _
    rw [hw]
  | float64 bits =>
    obtain ⟨ht, hw⟩ := takeScalar_word bits rest
    change (takeScalar 8 (leBytes 8 bits.toNat ++ rest) >>= _) = _
    rw [ht]
    change Except.ok (Scalar.float64 _, rest) = _
    rw [hw]
  | utf8 v =>
    obtain ⟨-, ht⟩ := takeScalar_counted hv rest
    change (takeScalar 4 (leBytes 4 (utf8Bytes v).length ++ (utf8Bytes v ++ rest)) >>= _) = _
    change (takeScalar (ofLeBytes (leBytes 4 (utf8Bytes v).length)) (utf8Bytes v ++ rest) >>= _) = _
    rw [ht]
    change (match stringOfUtf8 (utf8Bytes v) with | none => _ | some s => _) = _
    rw [stringOfUtf8_utf8Bytes]
    rfl
  | bytes v =>
    obtain ⟨hl, ht⟩ := takeScalar_counted hv rest
    simp only [valueBytes, Scalar.encodeKey, encodeBytes, append_assoc, cons_append]
    change (takeScalar 4 (leBytes 4 v.length ++ (v ++ rest)) >>= _) = _
    rw [hl]
    change (takeScalar (ofLeBytes (leBytes 4 v.length)) (v ++ rest) >>= _) = _
    rw [ht]
    rfl
  | timestampMicrosUTC v =>
    obtain ⟨ht, hw⟩ := takeScalar_word v.toUInt64 rest
    change (takeScalar 8 (leBytes 8 v.toUInt64.toNat ++ rest) >>= _) = _
    rw [ht]
    change Except.ok (Scalar.timestampMicrosUTC _, rest) = _
    rw [hw, Int64.toInt64_toUInt64]
  | dynamic v => exact hv.elim

/-! ### Keys -/

/-- The value with the representation a key gives it. -/
def Scalar.canonical : Scalar → Scalar
  | .float64 bits => .float64 (canonicalBits bits)
  | v => v

theorem encodeKey_eq (v : Scalar) : v.encodeKey = valueBytes v.canonical := by
  cases v <;> rfl

theorem Scalar.Encodable.canonical {v : Scalar} (hv : v.Encodable) : v.canonical.Encodable := by
  cases v <;> exact hv

/-- **Keys with the same bytes hold the same values**, up to the representation of zeros and NaNs. -/
theorem encodeKeyValues_injective {as bs : List Scalar} (ha : ∀ a ∈ as, a.Encodable) (hb : ∀ b ∈ bs, b.Encodable)
    (h : encodeKeyValues as = encodeKeyValues bs) : as.map Scalar.canonical = bs.map Scalar.canonical := by
  induction as generalizing bs with
  | nil =>
    cases bs with
    | nil => rfl
    | cons b bs => simp [encodeKeyValues] at h
  | cons a as ih =>
    cases bs with
    | nil => simp [encodeKeyValues] at h
    | cons b bs =>
      obtain ⟨ha₀, ha⟩ := List.forall_mem_cons.mp ha
      obtain ⟨hb₀, hb⟩ := List.forall_mem_cons.mp hb
      simp only [encodeKeyValues, flatMap_cons, append_assoc, encodeKey_eq] at h
      -- both sides decode to their first value and what follows it
      have hre := congrArg decodeValue h
      rw [decodeValue_valueBytes ha₀.canonical, decodeValue_valueBytes hb₀.canonical] at hre
      obtain ⟨hv, hr⟩ := Prod.mk.inj (Except.ok.inj hre)
      have hr : encodeKeyValues as = encodeKeyValues bs := by
        simpa [encodeKeyValues, encodeKey_eq] using hr
      rw [map_cons, map_cons, hv, ih ha hb hr]

end Sparrow.Model
