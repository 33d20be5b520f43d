import Sparrow.Expression.Eval

/-!
# What the functions give

One statement for each operation: of which type its result is, and when it is NULL.

## What is proved

* `cast_ok`, `evalArith_ok`, `evalBinary_isNull`, `evalLogic_isNull` — casts and operators.
* `evalBuiltin_ok`, `evalBuiltin_isNull`, `evalCollection_ok` — the functions of the table.
* `evalCoalesce_ok`, `evalExtreme_ok`, `evalExtreme_isNull` — the functions that forward an argument.
-/

namespace Sparrow.Expression

open Library Model Scalar

variable {texts : Texts} {f : Function} {args vals : List Scalar} {v l r : Scalar} {T : DataType}

/-! ### NULL and types -/

/-- A type all values of which are typed values of it. -/
def Plain : DataType → Bool
  | .bool | .int64 | .uInt64 | .float64 | .utf8 | .bytes | .timestampMicrosUTC => true
  | _ => false

theorem isNull_of_plain (h : v.dataType = T) (hT : Plain T = true) : v.isNull = false := by
  subst h
  cases v <;> simp_all [dataType, isNull, Plain]

theorem matchesType_of_plain (h : v.dataType = T) (hT : Plain T = true) : v.matchesType T = true := by
  subst h
  cases v <;> simp_all [dataType, matchesType, Plain]

theorem matchesType_dynamic (v : Scalar) : v.matchesType .dynamic = true := by cases v <;> rfl

theorem dataType_of_matchesType (h : v.matchesType T = true) (hT : Plain T = true) : v.dataType = T := by
  cases T <;> cases v <;> simp_all [dataType, matchesType, Plain]

theorem unwrapScalar_eq_null : unwrapScalar v = .null ↔ v.isNull = true := by
  cases v with
  | dynamic d => cases d <;> simp [unwrapScalar, isNull]
  | _ => simp [unwrapScalar, isNull]

/-! ### Text -/

variable {s : String}

theorem boundedString_ok : (boundedString s).Ensures (·.dataType = .utf8) := by
  unfold boundedString
  split_ifs
  · exact .error
  · exact .ok rfl

theorem boundedText_ok : (boundedText s).Ensures (·.dataType = .utf8) := by
  unfold boundedText
  split_ifs
  · exact .error
  · exact .ok rfl

/-! ### Casts -/

theorem isNull_dynamicFromScalar (v : Scalar) : (Scalar.dynamic (dynamicFromScalar v)).isNull = v.isNull := by
  cases v with
  | dynamic d => rfl
  | _ => rfl

/-- What is asked of the result of a cast: NULL or a value of the target, and NULL for NULL only unless it is a `TRY_CAST`. -/
def CastsTo (T : DataType) (tryCast : Bool) (v r : Scalar) : Prop :=
  (r.isNull = false → r.matchesType T = true) ∧ (tryCast = false → r.isNull = v.isNull)

variable {tryCast : Bool} {op : BinaryOp} {first : Scalar} {name : String} {replaces : Ordering}

theorem castsTo_of_plain (hv : v.isNull = false) (hr : r.dataType = T) (hT : Plain T = true) : CastsTo T tryCast v r :=
  ⟨fun _ => matchesType_of_plain hr hT, fun _ => (isNull_of_plain hr hT).trans hv.symm⟩

theorem castsTo_of_fail {message : String} : (cast.fail tryCast message).Ensures (CastsTo T tryCast v) := by
  unfold cast.fail
  split_ifs with ht
  · exact .ok ⟨nofun, fun hf => by simp [hf] at ht⟩
  · exact .error

theorem cast_ok : (cast texts v T tryCast).Ensures (CastsTo T tryCast v) := by
  unfold cast
  split_ifs with hn
  · exact .ok ⟨nofun, fun _ => hn.symm⟩
  · have hn : v.isNull = false := by simpa using hn
    split
    case h_17 => exact .ok ⟨fun _ => matchesType_dynamic _, fun _ => isNull_dynamicFromScalar _⟩
    all_goals (try split)
    all_goals first
      | exact .ok (castsTo_of_plain hn rfl rfl)
      | exact castsTo_of_fail

/-! ### Arithmetic -/

/-- A division by zero is NULL; everything else is of the type. -/
def DividesTo (op : BinaryOp) (zero : Prop) (T : DataType) (v : Scalar) : Prop :=
  (op = .div ∧ zero ∧ v = .null) ∨ (¬ (op = .div ∧ zero) ∧ v.dataType = T)

theorem evalIntArith_ok {a b : Int64} : (evalIntArith op a b).Ensures (DividesTo op (b = 0) .int64) := by
  unfold evalIntArith
  split_ifs with hz
  · exact .ok (.inl ⟨hz.1, hz.2, rfl⟩)
  · dsimp only
    split
    · exact .ok (.inr ⟨hz, rfl⟩)
    · exact .error

variable {b : UInt64}

theorem evalUIntArith_ok {a : UInt64} : (evalUIntArith op a b).Ensures (DividesTo op (b = 0) .uInt64) := by
  unfold evalUIntArith
  split_ifs with hz
  · exact .ok (.inl ⟨hz.1, hz.2, rfl⟩)
  · dsimp only
    split
    · exact .ok (.inr ⟨hz, rfl⟩)
    · exact .error

def BinaryOp.IsArithmetic (op : BinaryOp) : Prop := op = .add ∨ op = .sub ∨ op = .mul ∨ op = .div

/-- The divisor is zero in the arithmetic that the two values call for. -/
def zeroDivisor : Scalar → Scalar → Bool
  | .int64 _, .int64 b => b = 0
  | .uInt64 _, .uInt64 b => b = 0
  | .int64 _, .uInt64 b => b = 0
  | .uInt64 _, .int64 b => b = 0
  | _, b => b.asF64.any isZeroBits

theorem evalFloatArith_ok (hop : op.IsArithmetic) :
    (evalFloatArith op l r).Ensures fun v => (isFloat l = true ∨ isFloat r = true) ∧
      DividesTo op (r.asF64.any isZeroBits = true) .float64 v := by
  unfold evalFloatArith
  split
  case h_2 => exact .error
  case h_1 a b _ hb =>
    split
    · exact .error
    rename_i hf
    have hf : isFloat l = true ∨ isFloat r = true := by
      cases hl : isFloat l <;> simp_all
    simp only [hb, Option.any_some]
    obtain rfl | rfl | rfl | rfl := hop
    · exact .ok ⟨hf, .inr ⟨nofun, rfl⟩⟩
    · exact .ok ⟨hf, .inr ⟨nofun, rfl⟩⟩
    · exact .ok ⟨hf, .inr ⟨nofun, rfl⟩⟩
    · dsimp only
      split_ifs with hze
      · exact .ok ⟨hf, .inl ⟨rfl, hze, rfl⟩⟩
      · exact .ok ⟨hf, .inr ⟨fun ⟨_, hz⟩ => hze hz, rfl⟩⟩

/-- The types of arithmetic on values that are not NULL, as they are evaluated. -/
def arithmeticResult : DataType → DataType → DataType
  | .uInt64, .uInt64 => .uInt64
  | .int64, .int64 => .int64
  | .int64, .uInt64 => .int64
  | .uInt64, .int64 => .int64
  | _, _ => .float64

theorem ofInt_toNat_eq_zero (hb : b.toNat < 2 ^ 63) : Int64.ofInt b.toNat = 0 ↔ b = 0 := by
  rw [← Int64.toInt_inj, Int64.toInt_ofInt_of_le (by simp) (by simp; omega), ← UInt64.toNat_inj]
  simp

theorem arithmeticResult_of_float (h : isFloat l = true ∨ isFloat r = true) :
    arithmeticResult l.dataType r.dataType = .float64 := by
  cases l <;> cases r <;> simp_all [isFloat, arithmeticResult, dataType]

/-- What arithmetic on values that are not NULL gives: a float only for a float. -/
def Computes (op : BinaryOp) (l r v : Scalar) : Prop :=
  DividesTo op (zeroDivisor l r = true) (arithmeticResult l.dataType r.dataType) v ∧
    (v.dataType = .float64 → isFloat l = true ∨ isFloat r = true)

theorem DividesTo.computes {zero : Prop} (h : DividesTo op zero T v) (hT : arithmeticResult l.dataType r.dataType = T)
    (hw : T ≠ .float64) (hz : zero ↔ zeroDivisor l r = true) : Computes op l r v := by
  unfold Computes
  rw [← hz, hT]
  refine ⟨h, fun hf => ?_⟩
  obtain ⟨-, -, rfl⟩ | ⟨-, rfl⟩ := h
  · cases hf
  · exact absurd hf hw

/-- Arithmetic on values that are not NULL gives NULL for a zero divisor only, and otherwise a number. -/
theorem evalArith_ok (hop : op.IsArithmetic) : (evalArith op l r).Ensures (Computes op l r) := by
  unfold evalArith
  split
  · exact .error
  split
  case h_1 => exact fun v h => (evalIntArith_ok h).computes rfl (by rintro ⟨⟩) (by simp [zeroDivisor])
  case h_2 => exact fun v h => (evalUIntArith_ok h).computes rfl (by rintro ⟨⟩) (by simp [zeroDivisor])
  case h_3 =>
    split_ifs with hb
    · exact fun v h => (evalIntArith_ok h).computes rfl (by rintro ⟨⟩) (by simp [zeroDivisor, ofInt_toNat_eq_zero hb])
    · exact fun v h => by obtain ⟨hf | hf, -⟩ := evalFloatArith_ok hop h <;> cases hf
  case h_4 =>
    split_ifs with ha
    · exact fun v h => (evalIntArith_ok h).computes rfl (by rintro ⟨⟩) (by simp [zeroDivisor])
    · exact fun v h => by obtain ⟨hf | hf, -⟩ := evalFloatArith_ok hop h <;> cases hf
  case h_5 h₁ h₂ h₃ h₄ =>
    -- neither of the integer pairs, so the divisor is read as a float
    intro v h
    obtain ⟨hf, hd⟩ := evalFloatArith_ok hop h
    have hz : zeroDivisor l r = r.asF64.any isZeroBits := by
      unfold zeroDivisor
      split
      · exact absurd rfl (h₁ _ _ rfl)
      all_goals first | rfl | (exfalso; simp_all)
    unfold Computes
    rw [hz, arithmeticResult_of_float hf]
    exact ⟨hd, fun _ => hf⟩

/-! ### Operators -/

/-- An operator that is not `AND` or `OR`. -/
def BinaryOp.IsStrict (op : BinaryOp) : Prop := op ≠ .and ∧ op ≠ .or

theorem evalBinary_ok (hop : op.IsStrict) :
    (evalBinary op l r).Ensures fun v => ((l.isNull = true ∨ r.isNull = true) ∧ v = .null) ∨
      (l.isNull = false ∧ r.isNull = false) ∧
        ((op.IsArithmetic ∧ evalArith op l r = .ok v) ∨ (op.isPredicate = true ∧ v.dataType = .bool)) := by
  unfold evalBinary
  split
  · exact absurd rfl hop.1
  · exact absurd rfl hop.2
  split_ifs with hn
  · exact .ok (.inl ⟨by simpa using hn, rfl⟩)
  have hb : l.isNull = false ∧ r.isNull = false := by simpa using hn
  split
  · exact fun v h => .inr ⟨hb, .inl ⟨.inl rfl, h⟩⟩
  · exact fun v h => .inr ⟨hb, .inl ⟨.inr (.inl rfl), h⟩⟩
  · exact fun v h => .inr ⟨hb, .inl ⟨.inr (.inr (.inl rfl)), h⟩⟩
  · exact fun v h => .inr ⟨hb, .inl ⟨.inr (.inr (.inr rfl)), h⟩⟩
  · exact .ok (.inr ⟨hb, .inr ⟨rfl, rfl⟩⟩)
  · exact .ok (.inr ⟨hb, .inr ⟨rfl, rfl⟩⟩)
  · have hp : op.isPredicate = true := by cases op <;> simp_all [BinaryOp.isPredicate]
    refine .bind fun ord _ => ?_
    cases ord with
    | none => exact .ok (.inr ⟨hb, .inr ⟨hp, rfl⟩⟩)
    | some ord => exact .bind fun _ _ => .ok (.inr ⟨hb, .inr ⟨hp, rfl⟩⟩)

theorem plain_arithmeticResult (a b : DataType) : Plain (arithmeticResult a b) = true := by
  unfold arithmeticResult
  split <;> rfl

theorem evalBinary_isNull (hop : op.IsStrict) (h : evalBinary op l r = .ok v) :
    v.isNull = true ↔ l.isNull = true ∨ r.isNull = true ∨ (op = .div ∧ zeroDivisor l r = true) := by
  obtain ⟨hnu, rfl⟩ | ⟨⟨hl, hr⟩, ⟨ha, h⟩ | ⟨hp, hv⟩⟩ := evalBinary_ok hop h
  · exact iff_of_true rfl (hnu.imp_right .inl)
  · rw [hl, hr]
    obtain ⟨⟨hd, hz, rfl⟩ | ⟨hn, hv⟩, -⟩ := evalArith_ok ha h
    · exact iff_of_true rfl (.inr (.inr ⟨hd, hz⟩))
    · rw [isNull_of_plain hv (plain_arithmeticResult _ _)]
      simpa using hn
  · rw [hl, hr, isNull_of_plain hv rfl]
    have hd : op ≠ .div := by
      rintro rfl
      cases hp
    simp [hd]

theorem evalLogic_isNull (hop : op = .and ∨ op = .or) (h : evalLogic op l r = .ok v) :
    (v = .null ∨ v.dataType = .bool) ∧ (v.isNull = true ↔ (l.isNull = true ∨ r.isNull = true) ∧
      l ≠ .bool (op = .or) ∧ r ≠ .bool (op = .or)) := by
  obtain ⟨a, ha, h⟩ := bind_eq_ok.mp h
  obtain ⟨b, hb, h⟩ := bind_eq_ok.mp h
  cases h
  have ht : ∀ {s : Scalar} {t : Option Bool}, truth s = .ok t →
      s = .null ∧ t = none ∨ ∃ b, s = .bool b ∧ t = some b := by
    intro s t hs
    cases s <;> simp_all [truth]
  obtain rfl | rfl := hop
  all_goals
    obtain ⟨rfl, rfl⟩ | ⟨x, rfl, rfl⟩ := ht ha <;> obtain ⟨rfl, rfl⟩ | ⟨y, rfl, rfl⟩ := ht hb
  all_goals first
    | (cases x <;> cases y <;> simp [isNull, dataType])
    | (cases x <;> simp [isNull, dataType])
    | (cases y <;> simp [isNull, dataType])
    | simp [isNull, dataType]

/-! ### The additive functions -/

/-- The type a function gives where it does not depend on the arguments. -/
def Function.builtinOut : Function → Option DataType
  | .concat | .substring | .replace | .trim | .toString | .jsonStringify | .formatTimestamp => some .utf8
  | .contains | .startsWith | .endsWith => some .bool
  | .toInt64 => some .int64
  | .toFloat64 => some .float64
  | .parseTimestamp => some .timestampMicrosUTC
  | _ => none

/-- What an additive function gives: a value of its type, NULL for NULL, or a number of the argument's type. -/
def Gives (f : Function) (first v : Scalar) : Prop :=
  (∃ T, f.builtinOut = some T ∧ v.dataType = T) ∨ (v = .null ∧ first.isNull = true) ∨
    ((f = .round ∨ f = .floor ∨ f = .ceil) ∧ v.dataType = first.dataType ∧ v.isNull = first.isNull)

theorem Gives.of_out (hf : f.builtinOut = some T) (hv : v.dataType = T) : Gives f first v := .inl ⟨T, hf, hv⟩

theorem evalRounding_ok {op : Float → Float} :
    (evalRounding op first).Ensures fun v => v.dataType = first.dataType ∧ v.isNull = first.isNull := by
  unfold evalRounding
  split
  · split_ifs
    · exact .ok ⟨rfl, rfl⟩
    · exact .error
  · exact .ok ⟨rfl, rfl⟩

theorem Gives.null (h : unwrapScalar first = .null) : Gives f first .null :=
  .inr (.inl ⟨rfl, unwrapScalar_eq_null.mp h⟩)

theorem evalToInt64_ok : (evalToInt64 first).Ensures (Gives .toInt64 first) := by
  unfold evalToInt64
  split
  case h_1 hn => exact .ok (.null hn)
  all_goals (try split)
  all_goals first
    | exact .ok (.of_out rfl rfl)
    | exact .error

theorem finiteFloat_ok {bits : UInt64} : (finiteFloat bits).Ensures (Gives .toFloat64 first) := by
  unfold finiteFloat
  split_ifs
  · exact .ok (.of_out rfl rfl)
  · exact .error

theorem evalToFloat64_ok : (evalToFloat64 texts first).Ensures (Gives .toFloat64 first) := by
  unfold evalToFloat64
  split
  case h_1 hn => exact .ok (.null hn)
  all_goals (try split)
  all_goals first
    | exact finiteFloat_ok
    | exact .error

theorem boundedString_gives (hf : f.builtinOut = some .utf8) : (boundedString s).Ensures (Gives f first) :=
  fun _ h => .of_out hf (boundedString_ok h)

theorem evalToString_ok : (evalToString texts first).Ensures (Gives .toString first) := by
  unfold evalToString
  split
  case h_1 hn => exact .ok (.null hn)
  all_goals (try split)
  all_goals first
    | exact .ok (.of_out rfl rfl)
    | exact boundedString_gives rfl
    | exact .error

theorem evalSearch_ok {test : String → String → Bool} {s needle : Scalar} (hf : f.builtinOut = some .bool) :
    (evalSearch test s needle).Ensures (Gives f first) :=
  .bind fun _ _ => .bind fun _ _ => .ok (.of_out hf rfl)

theorem parseTimestamp_ok {s : Scalar} : (parseTimestamp texts s).Ensures (Gives .parseTimestamp first) := by
  refine .bind fun _ _ => .bind fun _ _ => .bind fun _ _ => ?_
  split
  · exact .error
  · exact .bind fun _ _ => .ok (.of_out rfl rfl)

theorem formatTimestamp_ok {value : Scalar} : (formatTimestamp texts value).Ensures (Gives .formatTimestamp first) := by
  unfold formatTimestamp
  split
  all_goals (try split)
  all_goals first
    | exact boundedString_gives rfl
    | exact .error

theorem evalAdditive_ok (hf : f ≠ .jsonGet) : (evalAdditive texts f args).Ensures (Gives f (args.getD 0 .null)) := by
  unfold evalAdditive
  split
  · -- `concat`
    exact .bind fun _ _ => .bind fun _ _ => boundedString_gives rfl
  · -- `substring`
    exact .bind fun _ _ => .bind fun _ _ => .bind fun _ _ => .bind fun _ _ => boundedString_gives rfl
  · -- `replace`
    refine .bind fun _ _ => .bind fun _ _ => .bind fun _ _ => ?_
    exact .bind fun _ _ => .bind fun _ _ => boundedString_gives rfl
  · exact evalSearch_ok rfl
  · exact evalSearch_ok rfl
  · exact evalSearch_ok rfl
  · -- `trim`
    exact .bind fun _ _ => boundedString_gives rfl
  · exact fun _ h => .inr (.inr ⟨.inl rfl, evalRounding_ok h⟩)
  · exact fun _ h => .inr (.inr ⟨.inr (.inl rfl), evalRounding_ok h⟩)
  · exact fun _ h => .inr (.inr ⟨.inr (.inr rfl), evalRounding_ok h⟩)
  · exact evalToInt64_ok
  · exact evalToFloat64_ok
  · exact evalToString_ok
  · exact absurd rfl hf
  · exact parseTimestamp_ok
  · exact formatTimestamp_ok
  · exact .error

variable {argc : ℕ}

theorem checkCallArity_ok {u : Unit} (h : f.checkCallArity argc = .ok u) :
    f.semantics.minArgs ≤ argc ∧ ∀ most, f.semantics.maxArgs = some most → argc ≤ most := by
  obtain ⟨hl, hm⟩ := not_or.mp (refuseIf_eq_ok.mp h)
  refine ⟨not_lt.mp hl, fun most hs => ?_⟩
  simpa [hs] using hm

theorem minArgs_pos (f : Function) : 1 ≤ f.semantics.minArgs := by cases f <;> decide

theorem first_mem {u : Unit} (h : f.checkCallArity argc = .ok u) (ha : args.length = argc) :
    args.getD 0 .null ∈ args := by
  have hp := (minArgs_pos f).trans (checkCallArity_ok h).1
  cases args with
  | nil => simp at ha; omega
  | cons a rest => simp

/-- The functions that give NULL exactly for NULL arguments. -/
def Function.Propagates (f : Function) : Prop :=
  f.isBuiltin = true ∧ f.isCollection = false ∧ f ≠ .jsonGet ∧ f ≠ .jsonStringify ∧ f ≠ .jsonObject

theorem evalBuiltin_ok (hf : f.Propagates) :
    (evalBuiltin texts f args).Ensures fun v => (args.any isNull = true ∧ v = .null) ∨
      (args.any isNull = false ∧ args.getD 0 .null ∈ args ∧ Gives f (args.getD 0 .null) v) := by
  obtain ⟨-, -, hg, hs, ho⟩ := hf
  refine .bind fun _ ha => .bind fun _ _ => .bind fun _ _ => ?_
  split
  · exact absurd rfl hs
  · exact absurd rfl ho
  · split_ifs with hn
    · exact .ok (.inl ⟨hn, rfl⟩)
    · exact fun v h => .inr ⟨by simpa using hn, first_mem ha rfl, evalAdditive_ok hg h⟩

theorem evalBuiltin_isNull (hf : f.Propagates) (h : evalBuiltin texts f args = .ok v) :
    v.isNull = true ↔ ∃ a ∈ args, a.isNull = true := by
  obtain ⟨hnu, rfl⟩ | ⟨hnu, hfi, hg⟩ := evalBuiltin_ok hf h
  · exact iff_of_true rfl (List.any_eq_true.mp hnu)
  · have hno : ∀ a ∈ args, a.isNull = false := by simpa using hnu
    refine iff_of_false ?_ fun ⟨a, ha, hn⟩ => by simp [hno a ha] at hn
    obtain ⟨T, hT, hv⟩ | ⟨-, hn⟩ | ⟨-, -, hv⟩ := hg
    · have hp : Plain T = true := by cases f <;> simp_all [Function.builtinOut, Plain] <;> subst hT <;> rfl
      simp [isNull_of_plain hv hp]
    · exact absurd hn (by rw [hno _ hfi]; exact Bool.false_ne_true)
    · rw [hv, hno _ hfi]
      exact Bool.false_ne_true

theorem jsonStringify_ok : (evalBuiltin texts .jsonStringify args).Ensures (·.dataType = .utf8) := by
  refine .bind fun _ _ => .bind fun _ _ => .bind fun _ _ => .bind fun _ _ => ?_
  split
  · exact boundedString_ok
  · exact .error

theorem jsonObject_isNull : (evalBuiltin texts .jsonObject args).Ensures fun v =>
    v.isNull = true ↔ ∃ a ∈ stepByTwo args, a.isNull = true := by
  refine .bind fun _ _ => .bind fun _ _ => .bind fun _ _ => ?_
  change (jsonObject args).Ensures _
  unfold jsonObject
  split_ifs with hn
  · exact .ok (iff_of_true rfl (List.any_eq_true.mp hn))
  · refine .bind fun _ _ => .bind fun _ _ => .ok ?_
    exact iff_of_false (by simp [isNull]) fun hk => hn (List.any_eq_true.mpr hk)

/-! ### The collection functions -/

def Function.collectionOut (f : Function) : DataType := (f.collectionTypes []).2

theorem collectionTypes_snd (f : Function) (types : List DataType) : (f.collectionTypes types).2 = f.collectionOut := by
  cases f <;> rfl

theorem evalItems_ok : (evalItems texts f args).Ensures fun v =>
    v = .null ∨ f.collectionOut = .dynamic ∨ v.dataType = f.collectionOut := by
  have ht {s : String} (hf : f.collectionOut = .utf8) : (boundedText s).Ensures fun v =>
      v = .null ∨ f.collectionOut = .dynamic ∨ v.dataType = f.collectionOut :=
    fun _ h => .inr (.inr ((boundedText_ok h).trans hf.symm))
  unfold evalItems
  split
  -- what gives an array, an object or an element of one is dynamic
  any_goals exact fun _ _ => .inr (.inl rfl)
  · -- `array_length`
    exact .bind fun _ _ => .ok (.inr (.inr rfl))
  · -- `array_contains`
    exact .bind fun _ _ => .ok (.inr (.inr rfl))
  · -- `array_join`: NULL for a null element
    refine .bind fun _ _ => .bind fun _ _ => .bind fun joined _ => ?_
    cases joined with
    | none => exact .ok (.inl rfl)
    | some s => exact ht rfl
  · -- `object_has_key`
    exact .bind fun _ _ => .bind fun _ _ => .ok (.inr (.inr rfl))
  · -- `base64_encode`
    exact .bind fun _ _ => .bind fun _ _ => ht rfl
  · -- `base64_decode`
    refine .bind fun _ _ => ?_
    split
    · exact .ok (.inr (.inr rfl))
    · exact .error
  · -- `hex_encode`
    exact .bind fun _ _ => .bind fun _ _ => ht rfl
  · -- `hex_decode`
    exact .bind fun _ _ => .bind fun _ _ => .bind fun _ _ => .ok (.inr (.inr rfl))
  · -- `sha256`
    exact .bind fun _ _ => ht rfl
  · exact .error

theorem evalCollection_ok : (evalCollection texts f args).Ensures fun v =>
    v = .null ∨ f.collectionOut = .dynamic ∨ v.dataType = f.collectionOut := by
  refine .bind fun _ _ => .bind fun _ _ => .bind fun _ _ => ?_
  split_ifs
  · exact .ok (.inl rfl)
  · exact evalItems_ok

/-! ### The functions without a table entry of types -/

variable {arg : Option Scalar}

theorem evalAbs_ok : (evalAbs arg).Ensures fun v =>
    ∃ a, arg = some a ∧ v.dataType = a.dataType ∧ v.isNull = a.isNull ∧ (Plain v.dataType = true ∨ v = .null) := by
  cases arg with
  | none => exact .error
  | some a =>
    cases a with
    | int64 n =>
      unfold evalAbs
      dsimp only
      split
      · exact .ok ⟨_, rfl, rfl, rfl, .inl rfl⟩
      · exact .error
    | float64 bits => exact .ok ⟨_, rfl, rfl, rfl, .inl rfl⟩
    | null => exact .ok ⟨_, rfl, rfl, rfl, .inr rfl⟩
    | _ => exact .error

theorem evalText_ok {op : String → Scalar} (hop : ∀ s, (op s).dataType = T) :
    (evalText name op arg).Ensures fun v =>
      (arg = some .null ∧ v = .null) ∨ (∃ s, arg = some (.utf8 s)) ∧ v.dataType = T := by
  unfold evalText
  split
  · exact .ok (.inr ⟨⟨_, rfl⟩, hop _⟩)
  · exact .ok (.inl ⟨rfl, rfl⟩)
  · exact .error

theorem evalCoalesce_ok (h : evalCoalesce vals = .ok v) :
    ((∀ a ∈ vals, a.isNull = true) ∧ v = .null) ∨ (v ∈ vals ∧ v.isNull = false) := by
  replace h := after_check h
  cases h
  cases hf : vals.find? fun v => !v.isNull with
  | none => exact .inl ⟨by simpa using hf, rfl⟩
  | some w => exact .inr ⟨List.mem_of_find?_eq_some hf, by simpa using List.find?_some hf⟩

theorem evalCoalesce_isNull (h : evalCoalesce vals = .ok v) : v.isNull = true ↔ ∀ a ∈ vals, a.isNull = true := by
  obtain ⟨ha, rfl⟩ | ⟨hm, hn⟩ := evalCoalesce_ok h
  · exact iff_of_true rfl ha
  · exact iff_of_false (by simp [hn]) fun ha => by simp [ha v hm] at hn

theorem evalNullif_ok (h : evalNullif vals = .ok v) : v = .null ∨ vals.head? = some v := by
  unfold evalNullif at h
  split at h
  · cases h
    split_ifs
    · exact .inl rfl
    · exact .inr rfl
  · cases h

/-- An argument that `greatest` and `least` skip. -/
def Skipped (v : Scalar) : Prop := v.isNull = true ∨ v.isNaN = true

instance : DecidablePred Skipped := fun _ => inferInstanceAs (Decidable (_ ∨ _))

theorem better_ok {acc acc' : Option Scalar} {a : Scalar} (h : better replaces acc a = .ok acc') :
    (Skipped a ∧ acc' = acc) ∨ (¬ Skipped a ∧ (acc' = some a ∨ (acc.isSome ∧ acc' = acc))) := by
  unfold better at h
  split_ifs at h with hs
  · exact .inl ⟨by simpa [Skipped] using hs, (Except.ok.inj h).symm⟩
  refine .inr ⟨by simpa [Skipped] using hs, ?_⟩
  cases acc with
  | none => exact .inl (Except.ok.inj h).symm
  | some prev =>
    obtain ⟨ord, -, h⟩ := bind_eq_ok.mp h
    cases ord with
    | none => exact .inr ⟨rfl, (Except.ok.inj h).symm⟩
    | some ord =>
      cases h
      split_ifs
      · exact .inl rfl
      · exact .inr ⟨rfl, rfl⟩

/-- The candidate after a run: from the start, or an argument that is not skipped; none only if all are skipped. -/
theorem foldlM_better_ok :
    ∀ (vals : List Scalar) {acc acc' : Option Scalar}, vals.foldlM (better replaces) acc = .ok acc' →
      (acc' = acc ∧ (acc = none → ∀ a ∈ vals, Skipped a)) ∨ ∃ a ∈ vals, ¬ Skipped a ∧ acc' = some a
  | [], acc, acc', h => .inl ⟨(Except.ok.inj h).symm, fun _ _ ha => absurd ha List.not_mem_nil⟩
  | a :: rest, acc, acc', h => by
    obtain ⟨mid, hm, h⟩ := bind_eq_ok.mp h
    obtain ⟨hk, hal⟩ | ⟨b, hb, hs, hac⟩ := foldlM_better_ok rest h
    · obtain ⟨hs, rfl⟩ | ⟨hs, rfl | ⟨hso, rfl⟩⟩ := better_ok hm
      · exact .inl ⟨hk, fun hn => List.forall_mem_cons.mpr ⟨hs, hal hn⟩⟩
      · exact .inr ⟨a, List.mem_cons_self, hs, hk⟩
      · exact .inl ⟨hk, fun hn => by simp [hn] at hso⟩
    · exact .inr ⟨b, List.mem_cons_of_mem _ hb, hs, hac⟩

/-- `greatest` and `least` give NULL if every argument is skipped, and otherwise one that is not. -/
theorem evalExtreme_ok (h : evalExtreme name replaces vals = .ok v) :
    ((∀ a ∈ vals, Skipped a) ∧ v = .null) ∨ (v ∈ vals ∧ ¬ Skipped v) := by
  replace h := after_check h
  obtain ⟨last, hl, h⟩ := bind_eq_ok.mp h
  cases h
  obtain ⟨rfl, hal⟩ | ⟨a, ha, hs, rfl⟩ := foldlM_better_ok vals hl
  · exact .inl ⟨hal rfl, rfl⟩
  · exact .inr ⟨ha, hs⟩

theorem evalExtreme_isNull (h : evalExtreme name replaces vals = .ok v) : v.isNull = true ↔ ∀ a ∈ vals, Skipped a := by
  obtain ⟨ha, rfl⟩ | ⟨hm, hs⟩ := evalExtreme_ok h
  · exact iff_of_true rfl ha
  · exact iff_of_false (fun hn => hs (.inl hn)) fun ha => hs (ha v hm)

end Sparrow.Expression
