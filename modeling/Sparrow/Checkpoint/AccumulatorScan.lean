import Sparrow.Checkpoint.AnalysisFreeze
import Sparrow.Model.ValueScan

/-!
# The accumulators of a checkpoint

`sparrow-runtime/src/aggregate.rs`, `decode_codec` and `skip_encoded_codec`: an accumulator is read
from a checkpoint, or only passed over. The pass returns the size the accumulator will have, so
that its memory is granted before it is built.

## What is proved

* `scalarFrame_agrees` — a value is passed over as it is read, and its size is known.
* `decode_agrees`, `decodeCodec_agrees` — so is an accumulator, on every input.
-/

namespace Sparrow.Runtime

open Library Library.Parser Model

/-! ### Values -/

/-- A value, built or only passed over, and the size it has. -/
def scalarFrame : Bool → Parser SparrowError (Option Scalar × ℕ)
  | true => do
    let (v, bytes) ← consumed decodeValue
    return (some v, encodedScalarResident bytes)
  | false => do
    let ((), bytes) ← consumed skipEncodedValue
    return (none, encodedScalarResident bytes)

theorem encodedScalarResident_eq {src rest : Bytes} {v : Scalar} (h : decodeValue src = .ok (v, rest)) :
    encodedScalarResident (src.take (src.length - rest.length)) = v.residentBytes ∧ v.residentBytes < 2 ^ 33 := by
  obtain ⟨hp, bytes, rfl, hl, hlt⟩ := decodeValue_ok h
  have ht : (v.tag :: (bytes ++ rest)).take ((v.tag :: (bytes ++ rest)).length - rest.length) = v.tag :: bytes := by
    rw [← List.cons_append, List.length_append, Nat.add_sub_cancel, List.take_left']
    rfl
  rw [ht]
  unfold encodedScalarResident Scalar.residentBytes
  cases v with
  | dynamic d => cases hp
  | utf8 s | bytes b =>
    simp only [Scalar.payloadLength] at hl hlt
    simp [Scalar.tag, Scalar.residentHeapBytes, hl, satAdd, usizeMax, scalarSize]
    omega
  | _ => exact ⟨rfl, show satAdd scalarSize 0 < 2 ^ 33 by decide⟩

/-- The size of a value that was read. -/
structure Sized (v : Scalar) (n : ℕ) : Prop where
  eq : n = v.residentBytes
  lt : v.residentBytes < 2 ^ 33

theorem values_agree : Agree (fun a b => a.2 = b.2 ∧ Sized a.1 (encodedScalarResident a.2)) (consumed decodeValue)
    (consumed skipEncodedValue) := by
  refine decodeValue_agrees.consumed fun src v rest b hv _ => ⟨rfl, ?_⟩
  obtain ⟨hs, hlt⟩ := encodedScalarResident_eq hv
  exact ⟨hs, hlt⟩

theorem scalarFrame_agrees :
    Agree (fun a b => a.2 = b.2 ∧ ∃ v, a.1 = some v ∧ Sized v a.2) (scalarFrame true) (scalarFrame false) :=
  values_agree.bind fun a _ ⟨hb, hs⟩ => .pure ⟨congrArg encodedScalarResident hb, a.1, rfl, hs⟩

/-! ### Accumulators -/

/-- The grammar of the accumulators, by the codec of the participant. -/
inductive AccumulatorCodec where
  | window
  | windowExt
  deriving DecidableEq, Repr

/-- `ACC_BASE_BYTES`. -/
def accBaseBytes : ℕ := 48

/-- `EXT_ACC_BASE_BYTES`. -/
def extAccBaseBytes : ℕ := 128

/-- `MOMENT_ENCODED_BYTES`. -/
def momentEncodedBytes : ℕ := 1 + 1 + 8 + 8 + 8

def codec1Extended : SparrowError :=
  (SparrowError.new .unsupportedRestore ("window state codec 1 cannot carry FIRST/LAST/VAR/STDDEV accumulator tags 8/9; " ++
    "codec 3 (v29/v30) is required")).withContext "checkpoint_guard" "extended_codec_mismatch"

/-- An extended accumulator is malformed. -/
def extInvalid (message : String) : SparrowError := .new .codecViolation message

def byteAt (src : Bytes) (i : ℕ) : ℕ := (src.getD i 0).toNat

def wordAt (src : Bytes) (i : ℕ) : UInt64 := .ofNat (ofLeBytes ((src.drop i).take 8))

def checkValueTag (src : Bytes) : Result Unit :=
  match src.head?.map UInt8.toNat with
  | some 1 =>
    refuseIf (¬ (src[1]? = some 0 ∨ src[1]? = some 1)) (extInvalid "FIRST/LAST Bool value is not canonical")
  | some 2 | some 3 | some 4 | some 5 | some 6 | some 7 => .ok ()
  | _ => .error (extInvalid "FIRST/LAST value must be a non-NULL scalar tag 1..=7")

/-- `check_value_scalar`: the length of the value of FIRST or LAST. -/
def checkValueScalar (src : Bytes) : Result ℕ := do
  checkValueTag src
  let ((), cursor) ← skipEncodedValue src
  return src.length - cursor.length

namespace ExtendedAccumulator

/-- `check_moment`: what a variance can have been. -/
def checkMoment (n mean m2 : UInt64) : Result Unit :=
  let valid : Bool :=
    if n = 0 then mean = 0 ∧ m2 = 0
    else isFiniteBits mean && isFiniteBits m2 && (m2.toNat < 2 ^ 63 || isZeroBits m2) && (n ≠ 1 ∨ m2 = 0)
  refuseIf (¬ valid) (extInvalid "invalid VAR/STDDEV moment state")

/-- `skip_encoded`: the size of the accumulator. -/
def skipEncoded : Parser SparrowError ℕ := fun src => do
  let truncated := extInvalid "truncated extended accumulator"
  match src.head?.map UInt8.toNat with
  | some 8 =>
    refuseIf (src.length < 3) truncated
    refuseIf (byteAt src 1 > 1) (extInvalid "invalid FIRST/LAST mode")
    match byteAt src 2 with
    | 0 => return (extAccBaseBytes, src.drop 3)
    | 1 =>
      let len ← checkValueScalar (src.drop 3)
      let resident := encodedScalarResident ((src.drop 3).take len)
      return (satAdd extAccBaseBytes resident, src.drop (3 + len))
    | _ => .error (extInvalid "invalid FIRST/LAST presence flag")
  | some 9 =>
    refuseIf (src.length < momentEncodedBytes) truncated
    refuseIf (byteAt src 1 > 3) (extInvalid "invalid VAR/STDDEV mode")
    checkMoment (wordAt src 2) (wordAt src 10) (wordAt src 18)
    return (extAccBaseBytes, src.drop momentEncodedBytes)
  | _ => .error (extInvalid "unknown extended accumulator tag")

/-- `decode`, which scans first. -/
def decode : Parser SparrowError ExtendedAccumulator := fun src => do
  let (_, cursor) ← skipEncoded src
  if byteAt src 0 = 8 then
    let first : Bool := byteAt src 1 = 0
    if byteAt src 2 = 1 then
      let (v, _) ← decodeValue (src.drop 3)
      return (.value first (some v), cursor)
    else return (.value first none, cursor)
  else
    let mode := byteAt src 1
    return (.moment (mode % 2 ≠ 0) (mode / 2 % 2 ≠ 0) (wordAt src 2) (wordAt src 10) (wordAt src 18), cursor)

end ExtendedAccumulator

namespace Accumulator

/-- `tracked_bytes`. -/
def trackedBytes : Accumulator → ℕ
  | .extended (.value _ v) => extAccBaseBytes + v.elim 0 Scalar.residentBytes
  | .extended (.moment ..) => extAccBaseBytes
  | .min v | .max v => accBaseBytes + v.elim 0 Scalar.residentBytes
  | _ => accBaseBytes

def invalidEncoding : SparrowError := .new .codecViolation "invalid or truncated accumulator encoding"

/-- `Min` and `Max` may be empty. -/
def skipOptScalar : Parser SparrowError ℕ := do
  match ofLeBytes (← Parser.take 1 invalidEncoding) with
  | 0 => return accBaseBytes
  | 1 => do
    let (_, n) ← scalarFrame false
    return satAdd accBaseBytes n
  | _ => Parser.fail invalidEncoding

def skipFields (tag : ℕ) : Parser SparrowError ℕ :=
  match tag with
  | 1 | 5 => do
    let _ ← Parser.take 17 invalidEncoding
    return accBaseBytes
  | 2 | 3 | 4 => do
    let _ ← Parser.take 16 invalidEncoding
    return accBaseBytes
  | 6 | 7 => skipOptScalar
  | _ => Parser.fail invalidEncoding

/-- `skip_encoded_codec`: the size of the accumulator. -/
def skipEncodedCodec (codec : AccumulatorCodec) : Parser SparrowError ℕ
  | [] => .error invalidEncoding
  | tag :: src =>
    if tag.toNat = 8 ∨ tag.toNat = 9 then
      if codec ≠ .windowExt then .error codec1Extended else ExtendedAccumulator.skipEncoded (tag :: src)
    else skipFields tag.toNat src

/-- `take_u8`. -/
def takeU8 : Parser SparrowError ℕ := do
  return ofLeBytes (← Parser.take 1 (.new .codecViolation "truncated accumulator byte"))

/-- `take_u64`. -/
def takeU64 : Parser SparrowError UInt64 := do
  return .ofNat (ofLeBytes (← Parser.take 8 (.new .codecViolation "truncated accumulator integer")))

/-- `take_i64`. -/
def takeI64 : Parser SparrowError Int64 := do return (← takeU64).toInt64

/-- `decode_opt_scalar`. -/
def decodeOptScalar : Parser SparrowError (Option Scalar) := do
  match ← takeU8 with
  | 0 => return none
  | 1 => do return some (← (decodeValue : Parser SparrowError Scalar))
  | _ => Parser.fail (.new .codecViolation "invalid optional scalar tag")

def decodeFields (tag : ℕ) : Parser SparrowError Accumulator :=
  match tag with
  | 1 => do
    let rows ← takeU64
    let nonNull ← takeU64
    let star ← takeU8
    return .count rows nonNull (star ≠ 0)
  | 2 => do
    let sum ← takeI64
    let n ← takeU64
    return .sumI64 sum n
  | 3 => do
    let sum ← takeU64
    let n ← takeU64
    return .sumU64 sum n
  | 4 => do
    let sum ← takeU64
    let n ← takeU64
    return .sumF64 sum n
  | 5 => do
    let sum ← takeU64
    let n ← takeU64
    let sawFloat ← takeU8
    return .avg sum n (sawFloat ≠ 0)
  | 6 => do return .min (← decodeOptScalar)
  | 7 => do return .max (← decodeOptScalar)
  | other => Parser.fail (.new .codecViolation s!"unknown accumulator tag {other}")

/-- `decode_codec`. -/
def decodeCodec (codec : AccumulatorCodec) : Parser SparrowError Accumulator
  | [] => .error (.new .codecViolation "truncated accumulator")
  | tag :: src =>
    if tag.toNat = 8 ∨ tag.toNat = 9 then
      if codec ≠ .windowExt then .error codec1Extended
      else (do return .extended (← ExtendedAccumulator.decode) : Parser SparrowError Accumulator) (tag :: src)
    else decodeFields tag.toNat src

end Accumulator

/-! ### The scan agrees with the decoder -/

theorem checkValueScalar_ok {src : Bytes} {len : ℕ} (h : checkValueScalar src = .ok len) :
    ∃ v rest, decodeValue src = .ok (v, rest) ∧ encodedScalarResident (src.take len) = v.residentBytes ∧
      v.residentBytes < 2 ^ 33 := by
  replace h := after_check h
  obtain ⟨⟨_, rest⟩, hs, h⟩ := bind_eq_ok.mp h
  cases h
  have ha := decodeValue_agrees src
  rw [hs] at ha
  generalize hd : (decodeValue src : Result (Scalar × Bytes)) = result at ha
  cases ha with
  | ok _ rest => exact ⟨_, rest, rfl, encodedScalarResident_eq hd⟩

theorem satAdd_base {base n : ℕ} (hb : base ≤ 128) (h : n < 2 ^ 33) : satAdd base n = base + n := by
  unfold satAdd usizeMax
  omega

theorem ExtendedAccumulator.skipEncoded_ok {src cursor : Bytes} {n : ℕ} (h : skipEncoded src = .ok (n, cursor)) :
    (byteAt src 0 = 8 ∧ byteAt src 2 = 0 ∧ n = extAccBaseBytes) ∨
    (byteAt src 0 = 8 ∧ byteAt src 2 = 1 ∧ ∃ v rest, decodeValue (src.drop 3) = .ok (v, rest) ∧
      n = extAccBaseBytes + v.residentBytes) ∨
    (byteAt src 0 = 9 ∧ n = extAccBaseBytes) := by
  have hh : ∀ k, src.head?.map UInt8.toNat = some k → byteAt src 0 = k := by
    intro k hk
    cases src with
    | nil => cases hk
    | cons tag src => exact Option.some.inj hk
  unfold skipEncoded at h
  split at h
  · rename_i ht
    replace h := after_check (after_check h)
    split at h
    · rename_i hf
      obtain ⟨rfl, -⟩ : _ ∧ _ := by simpa using Except.ok.inj h
      exact .inl ⟨hh 8 ht, hf, rfl⟩
    · rename_i hf
      obtain ⟨len, hl, h⟩ := bind_eq_ok.mp h
      obtain ⟨rfl, -⟩ : _ ∧ _ := by simpa using Except.ok.inj h
      obtain ⟨v, rest, hd, hs, hlt⟩ := checkValueScalar_ok hl
      exact .inr (.inl ⟨hh 8 ht, hf, v, rest, hd, by rw [hs, satAdd_base (by decide) hlt]⟩)
    · cases h
  · rename_i ht
    replace h := after_check (after_check (after_check h))
    obtain ⟨rfl, -⟩ : _ ∧ _ := by simpa using Except.ok.inj h
    exact .inr (.inr ⟨hh 9 ht, rfl⟩)
  · cases h

theorem ExtendedAccumulator.decode_agrees :
    Agree (fun acc n => n = (Accumulator.extended acc).trackedBytes) decode skipEncoded := by
  intro src
  cases hs : skipEncoded src with
  | error e =>
    have hd : decode src = .error e := by
      unfold decode
      rw [hs]
      rfl
    rw [hd]
    exact .error e e
  | ok r =>
    obtain ⟨n, cursor⟩ := r
    obtain ⟨ht, hf, rfl⟩ | ⟨ht, hf, v, rest, hv, rfl⟩ | ⟨ht, rfl⟩ := skipEncoded_ok hs
    · have hd : decode src = .ok (.value (byteAt src 1 = 0) none, cursor) := by
        unfold decode
        rw [hs]
        simp only [ht, hf]
        rfl
      rw [hd]
      refine .ok ?_ cursor
      rfl
    · have hd : decode src = .ok (.value (byteAt src 1 = 0) (some v), cursor) := by
        unfold decode
        rw [hs]
        simp only [ht, hf, hv]
        rfl
      rw [hd]
      refine .ok ?_ cursor
      rfl
    · have hd : decode src = .ok (.moment (byteAt src 1 % 2 ≠ 0) (byteAt src 1 / 2 % 2 ≠ 0) (wordAt src 2)
          (wordAt src 10) (wordAt src 18), cursor) := by
        unfold decode
        rw [hs]
        simp only [ht]
        rfl
      rw [hd]
      refine .ok ?_ cursor
      rfl

namespace Accumulator

theorem takeU64_takes : Takes (fun _ => True) 8 takeU64 := (Takes.take 8 _).bind fun _ _ => .pure trivial

theorem takeI64_takes : Takes (fun _ => True) 8 takeI64 := takeU64_takes.bind fun _ _ => .pure trivial

theorem takeU8_takes : Takes (fun _ => True) 1 takeU8 := (Takes.take 1 _).bind fun _ _ => .pure trivial

theorem decodeOptScalar_agrees :
    Agree (fun v n => n = accBaseBytes + v.elim 0 Scalar.residentBytes) decodeOptScalar skipOptScalar := by
  have ho : Agree (fun n bytes => n = ofLeBytes bytes) takeU8 (Parser.take 1 invalidEncoding) :=
    (Agree.take 1 _ _).map_left fun _ _ h => congrArg ofLeBytes h
  refine ho.bind fun n bytes h => ?_
  subst h
  obtain _ | _ | - := ofLeBytes bytes
  · exact .pure rfl
  · simp only [scalarFrame, bind_assoc, pure_bind]
    refine values_agree.of_consumed.bind fun v b ⟨bytes, hb, hs⟩ => .pure ?_
    rw [← hb, hs.eq, satAdd_base (by decide) hs.lt]
    rfl
  · exact .fail _ _

/-- The accumulators that are no values: their fields take as many bytes as the scan passes over. -/
theorem fields_agree {k : ℕ} {p : Parser SparrowError Accumulator}
    (hp : Takes (fun acc => acc.trackedBytes = accBaseBytes) k p) :
    Agree (fun acc n => n = acc.trackedBytes) p (do
      let _ ← Parser.take k invalidEncoding
      return accBaseBytes) := by
  have hs : Takes (fun n => n = accBaseBytes) k (do
      let _ ← Parser.take k invalidEncoding
      return accBaseBytes) := by
    refine (Takes.take k invalidEncoding).bind (m := 0) fun _ _ => .pure ?_
    rfl
  exact (hp.agree hs).mono fun _ _ h => h.2.trans h.1.symm

theorem words_takes {α : Type} {p : Parser SparrowError α} (hp : Takes (fun _ => True) 8 p)
    {make : α → UInt64 → Accumulator} (hm : ∀ sum n, (make sum n).trackedBytes = accBaseBytes) :
    Takes (fun acc => acc.trackedBytes = accBaseBytes) 16 (do
      let sum ← p
      let n ← takeU64
      return make sum n) :=
  hp.bind fun sum _ => takeU64_takes.bind (m := 0) fun n _ => .pure (hm sum n)

theorem flagged_takes {make : UInt64 → UInt64 → Bool → Accumulator}
    (hm : ∀ sum n flag, (make sum n flag).trackedBytes = accBaseBytes) :
    Takes (fun acc => acc.trackedBytes = accBaseBytes) 17 (do
      let sum ← takeU64
      let n ← takeU64
      let flag ← takeU8
      return make sum n (flag ≠ 0)) :=
  takeU64_takes.bind fun sum _ => takeU64_takes.bind (m := 1) fun n _ => takeU8_takes.bind (m := 0) fun flag _ =>
    .pure (hm sum n (flag ≠ 0))

theorem decodeFields_agrees (tag : ℕ) : Agree (fun acc n => n = acc.trackedBytes) (decodeFields tag)
    (skipFields tag) := by
  unfold decodeFields
  split
  · exact fields_agree (flagged_takes fun _ _ _ => rfl)
  · exact fields_agree (words_takes takeI64_takes fun _ _ => rfl)
  · exact fields_agree (words_takes takeU64_takes fun _ _ => rfl)
  · exact fields_agree (words_takes takeU64_takes fun _ _ => rfl)
  · exact fields_agree (flagged_takes fun _ _ _ => rfl)
  · exact decodeOptScalar_agrees.map_left fun _ _ h => h
  · exact decodeOptScalar_agrees.map_left fun _ _ h => h
  · have hs : skipFields tag = Parser.fail invalidEncoding := by
      unfold skipFields
      split <;> first | rfl | simp_all
    rw [hs]
    exact .fail _ _

/-- **An accumulator** is passed over as it is read, and its size is known. -/
theorem decodeCodec_agrees (codec : AccumulatorCodec) :
    Agree (fun acc n => n = acc.trackedBytes) (decodeCodec codec) (skipEncodedCodec codec) := by
  intro src
  cases src with
  | nil => exact .error _ _
  | cons tag src =>
    unfold decodeCodec skipEncodedCodec
    dsimp only
    split_ifs
    · exact .error _ _
    · exact ExtendedAccumulator.decode_agrees.map_left (fun _ _ h => h) (tag :: src)
    · exact decodeFields_agrees tag.toNat src

end Accumulator

end Sparrow.Runtime
