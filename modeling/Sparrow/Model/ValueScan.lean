import Sparrow.Library.Agreement
import Sparrow.Model.ValueCodec

/-!
# Passing over a value

`sparrow-model/src/scalar.rs`, `skip_encoded_value`: a checkpoint is scanned before anything of it
is built, so that the memory it will take is granted first.

## What is proved

* `decodeValue_agrees` — the scan and the decoder accept the same bytes.
* `decodeValue_ok` — how many bytes a decoded value was read from.
-/

namespace Sparrow.Model

open Library Library.Parser

def invalidScalar : SparrowError := .new .codecViolation "invalid or truncated scalar encoding"

/-- The length of the value after a tag, and whether it is text. -/
def payload (tag : UInt8) : Parser SparrowError (ℕ × Bool) :=
  match tag.toNat with
  | 0 => pure (0, false)
  | 1 => pure (1, false)
  | 2 | 3 | 4 | 7 => pure (8, false)
  | 5 | 6 => do
    let n ← Parser.take 4 invalidScalar
    return (ofLeBytes n, tag.toNat = 5)
  | _ => Parser.fail invalidScalar

def skipPayload (tag : UInt8) : Parser SparrowError Unit := do
  let (size, utf8) ← payload tag
  let bytes ← Parser.take size invalidScalar
  Parser.refuse (fun _ => utf8 && (stringOfUtf8 bytes).isNone) invalidScalar

/-- `skip_encoded_value`. -/
def skipEncodedValue : Parser SparrowError Unit
  | [] => .error invalidScalar
  | tag :: src => skipPayload tag src

/-! ### The scan agrees with the decoder -/

theorem takeScalar_eq (n : ℕ) (src : Bytes) :
    takeScalar n src = Parser.take n (.new .codecViolation "truncated scalar in checkpoint snapshot") src := rfl

variable {n : ℕ} {src rest : Bytes} {v : Scalar}

theorem agrees_fixed {tag : UInt8} (hp : payload tag = pure (n, false)) (make : Bytes → Scalar) (src : Bytes) :
    Agrees (fun _ _ => True) (takeScalar n src >>= fun r => .ok (make r.1, r.2)) (skipPayload tag src) := by
  rw [takeScalar_eq, skipPayload, hp]
  exact (Agree.take n _ invalidScalar).bind (S := fun _ _ => True)
    (f := fun bytes => (pure (make bytes) : Parser SparrowError Scalar)) (fun _ _ _ src => .ok trivial src) src

theorem agrees_counted (make : Bytes → Parser SparrowError Scalar) {tag : UInt8} {text : Bool}
    (hp : payload tag = do
      let n ← Parser.take 4 invalidScalar
      return (ofLeBytes n, text))
    (hm : ∀ bytes, Agree (fun _ _ => True) (make bytes)
      (Parser.refuse (fun _ => text && (stringOfUtf8 bytes).isNone) invalidScalar)) (src : Bytes) :
    Agrees (fun _ _ => True)
      (takeScalar 4 src >>= fun r => takeScalar (ofLeBytes r.1) r.2 >>= fun r => make r.1 r.2)
        (skipPayload tag src) := by
  simp only [takeScalar_eq, skipPayload, hp, bind_assoc, pure_bind]
  refine (Agree.take 4 _ invalidScalar).bind (S := fun _ _ => True)
    (f := fun n => Parser.take (ofLeBytes n) _ >>= make) (fun n _ h => ?_) src
  subst h
  exact (Agree.take _ _ invalidScalar).bind fun bytes _ h => h ▸ hm bytes

def textOf (bytes : Bytes) : Parser SparrowError Scalar := fun src =>
  match stringOfUtf8 bytes with
  | none => .error (.new .codecViolation "utf8 scalar not valid UTF-8")
  | some s => .ok (.utf8 s, src)

/-- **The scan and the decoder** accept the same inputs, and stop at the same place. -/
theorem decodeValue_agrees : Agree (fun _ _ => True) (decodeValue : Parser SparrowError Scalar) skipEncodedValue := by
  intro src
  cases src with
  | nil => exact .error _ _
  | cons tag src =>
    simp only [decodeValue, skipEncodedValue]
    split <;> rename_i h
    · exact agrees_fixed (show payload tag = pure (0, false) by simp [payload, h]) (fun _ => .null) src
    · exact agrees_fixed (show payload tag = pure (1, false) by simp [payload, h])
        (fun b => .bool (ofLeBytes b ≠ 0)) src
    · exact agrees_fixed (show payload tag = pure (8, false) by simp [payload, h])
        (fun b => .int64 (UInt64.ofNat (ofLeBytes b)).toInt64) src
    · exact agrees_fixed (show payload tag = pure (8, false) by simp [payload, h])
        (fun b => .uInt64 (.ofNat (ofLeBytes b))) src
    · exact agrees_fixed (show payload tag = pure (8, false) by simp [payload, h])
        (fun b => .float64 (.ofNat (ofLeBytes b))) src
    · have hp : payload tag = do
          let n ← Parser.take 4 invalidScalar
          return (ofLeBytes n, true) := by simp [payload, h]
      refine agrees_counted textOf hp (fun bytes src => ?_) src
      unfold Parser.refuse textOf
      cases stringOfUtf8 bytes with
      | none => exact .error _ _
      | some s => exact .ok trivial src
    · have hp : payload tag = do
          let n ← Parser.take 4 invalidScalar
          return (ofLeBytes n, false) := by simp [payload, h]
      exact agrees_counted (fun bytes => pure (.bytes bytes)) hp (fun bytes src => .ok trivial src) src
    · exact agrees_fixed (show payload tag = pure (8, false) by simp [payload, h])
        (fun b => .timestampMicrosUTC (UInt64.ofNat (ofLeBytes b)).toInt64) src
    · have hp : payload tag = Parser.fail invalidScalar := by simp [payload, h]
      rw [skipPayload, hp]
      exact .error _ _
    · have hp : payload tag = Parser.fail invalidScalar := by
        unfold payload
        split <;> first | rfl | simp_all
      rw [skipPayload, hp]
      exact .error _ _

/-! ### How long a value is -/

theorem takeScalar_ok {head : Bytes} (h : takeScalar n src = .ok (head, rest)) :
    src = head ++ rest ∧ head.length = n := by
  unfold takeScalar at h
  split_ifs at h with hl
  obtain ⟨rfl, rfl⟩ : _ ∧ _ := by simpa using Except.ok.inj h
  exact ⟨(List.take_append_drop n src).symm, by simp; omega⟩

theorem utf8Bytes_of_stringOfUtf8 {bytes : Bytes} {s : String} (h : stringOfUtf8 bytes = some s) :
    utf8Bytes s = bytes := by
  unfold stringOfUtf8 String.fromUTF8? at h
  split_ifs at h with hv
  cases h
  rfl

/-- The bytes after the tag of a value. -/
def Scalar.payloadLength : Scalar → ℕ
  | .null => 0
  | .bool _ => 1
  | .utf8 s => 4 + (utf8Bytes s).length
  | .bytes b => 4 + b.length
  | _ => 8

def Scalar.tag : Scalar → UInt8
  | .null => 0
  | .bool _ => 1
  | .int64 _ => 2
  | .uInt64 _ => 3
  | .float64 _ => 4
  | .utf8 _ => 5
  | .bytes _ => 6
  | .timestampMicrosUTC _ => 7
  | .dynamic _ => 8

theorem fixed_ok (make : Bytes → Scalar)
    (h : (takeScalar n src >>= fun r => (.ok (make r.1, r.2) : Result (Scalar × Bytes))) = .ok (v, rest)) :
    ∃ bytes, v = make bytes ∧ src = bytes ++ rest ∧ bytes.length = n := by
  obtain ⟨⟨bytes, src'⟩, ht, h⟩ := bind_eq_ok.mp h
  obtain ⟨rfl, rfl⟩ : _ ∧ _ := by simpa using Except.ok.inj h
  exact ⟨bytes, rfl, takeScalar_ok ht⟩

theorem counted_ok (make : Bytes → Parser SparrowError Scalar)
    (h : (takeScalar 4 src >>= fun r => takeScalar (ofLeBytes r.1) r.2 >>= fun r => make r.1 r.2) = .ok (v, rest)) :
    ∃ n bytes src', src = n ++ (bytes ++ src') ∧ n.length = 4 ∧ bytes.length < 2 ^ 32 ∧
      make bytes src' = .ok (v, rest) := by
  obtain ⟨⟨n, src₁⟩, hn, h⟩ := bind_eq_ok.mp h
  obtain ⟨⟨bytes, src₂⟩, hb, hm⟩ := bind_eq_ok.mp h
  obtain ⟨rfl, hl⟩ := takeScalar_ok hn
  obtain ⟨rfl, hc⟩ := takeScalar_ok hb
  have hlt := ofLeBytes_lt n
  rw [hl] at hlt
  exact ⟨n, bytes, src₂, rfl, hl, by simp only at hc; omega, hm⟩

theorem decodeValue_ok (h : decodeValue src = .ok (v, rest)) :
    v.isDynamic = false ∧ ∃ bytes, src = v.tag :: (bytes ++ rest) ∧ bytes.length = v.payloadLength ∧
      v.payloadLength < 2 ^ 32 + 4 := by
  cases src with
  | nil => cases h
  | cons tag src =>
    have ht {n : ℕ} (hn : tag.toNat = n) : tag = UInt8.ofNat n := by rw [← hn, UInt8.ofNat_toNat]
    simp only [decodeValue] at h
    split at h <;> rename_i hn
    · obtain ⟨rfl, rfl⟩ : _ ∧ _ := by simpa using Except.ok.inj h
      exact ⟨rfl, [], congrArg (· :: src) (ht hn), rfl, by simp [Scalar.payloadLength]⟩
    · obtain ⟨bytes, rfl, rfl, hl⟩ := fixed_ok (fun b => .bool (ofLeBytes b ≠ 0)) h
      exact ⟨rfl, bytes, congrArg (· :: _) (ht hn), hl, by simp [Scalar.payloadLength]⟩
    · obtain ⟨bytes, rfl, rfl, hl⟩ := fixed_ok (fun b => .int64 (UInt64.ofNat (ofLeBytes b)).toInt64) h
      exact ⟨rfl, bytes, congrArg (· :: _) (ht hn), hl, by simp [Scalar.payloadLength]⟩
    · obtain ⟨bytes, rfl, rfl, hl⟩ := fixed_ok (fun b => .uInt64 (.ofNat (ofLeBytes b))) h
      exact ⟨rfl, bytes, congrArg (· :: _) (ht hn), hl, by simp [Scalar.payloadLength]⟩
    · obtain ⟨bytes, rfl, rfl, hl⟩ := fixed_ok (fun b => .float64 (.ofNat (ofLeBytes b))) h
      exact ⟨rfl, bytes, congrArg (· :: _) (ht hn), hl, by simp [Scalar.payloadLength]⟩
    · obtain ⟨n, bytes, src', rfl, hl, hlt, hm⟩ := counted_ok textOf h
      cases hs : stringOfUtf8 bytes with
      | none => simp [textOf, hs] at hm
      | some s =>
        simp only [textOf, hs] at hm
        obtain ⟨rfl, rfl⟩ : _ ∧ _ := by simpa using Except.ok.inj hm
        obtain rfl := utf8Bytes_of_stringOfUtf8 hs
        refine ⟨rfl, n ++ utf8Bytes s, ?_, ?_, by simp only [Scalar.payloadLength]; omega⟩
        · rw [ht hn, List.append_assoc]
          rfl
        · rw [List.length_append, hl]
          rfl
    · obtain ⟨n, bytes, src', rfl, hl, hlt, hm⟩ := counted_ok (fun bytes => pure (.bytes bytes)) h
      obtain ⟨rfl, rfl⟩ : _ ∧ _ := by simpa using Except.ok.inj hm
      refine ⟨rfl, n ++ bytes, ?_, ?_, by simp only [Scalar.payloadLength]; omega⟩
      · rw [ht hn, List.append_assoc]
        rfl
      · rw [List.length_append, hl]
        rfl
    · obtain ⟨bytes, rfl, rfl, hl⟩ := fixed_ok (fun b => .timestampMicrosUTC (UInt64.ofNat (ofLeBytes b)).toInt64) h
      exact ⟨rfl, bytes, congrArg (· :: _) (ht hn), hl, by simp [Scalar.payloadLength]⟩
    · cases h
    · cases h

end Sparrow.Model
