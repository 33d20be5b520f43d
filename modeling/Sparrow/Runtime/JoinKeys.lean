import Sparrow.Runtime.JoinSteps

/-!
# Join keys: bytes and values

The operator compares the encoded bytes of two keys. Here the comparison of the values is
stated, and the two are shown to agree on every pair the operator sends: a pair is only
sent if both rows fit the output bound, and then no string is long enough to be mistaken
for another.
-/

namespace Sparrow.Runtime

open Library Model Plan List Scalar

/-! ### The comparison of values -/

def joinable (v : Scalar) : Bool := !v.isNull && !v.isNaN

/-- Two values that are neither null nor NaN are equal: of one type, and floats as IEEE numbers. A
key column is never dynamic. -/
def sameValue : Scalar → Scalar → Bool
  | .bool a, .bool b => a = b
  | .int64 a, .int64 b => a = b
  | .uInt64 a, .uInt64 b => a = b
  | .float64 a, .float64 b => a = b ∨ (isZeroBits a ∧ isZeroBits b)
  | .utf8 a, .utf8 b => a = b
  | .bytes a, .bytes b => a = b
  | .timestampMicrosUTC a, .timestampMicrosUTC b => a = b
  | _, _ => false

/-- Two keys are equal, and nothing in them is null or NaN. -/
def sameKey : List Scalar → List Scalar → Bool
  | [], [] => true
  | a :: as, b :: bs => joinable a && joinable b && sameValue a b && sameKey as bs
  | _, _ => false

/-- What is meant by a pair: equal keys, and times in one window or within the bounds. -/
def JoinConfig.joins (c : JoinConfig) (l r : JoinRecord) : Bool :=
  sameKey (c.keyValues .left l.row) (c.keyValues .right r.row) &&
    match c.spec.windowSizeMicros with
    | some size => l.time / size = r.time / size
    | none => l.time - c.spec.beforeMicros.getD 0 ≤ r.time ∧ r.time ≤ l.time + c.spec.afterMicros.getD 0

theorem JoinConfig.joins_eq (c : JoinConfig) (l r : JoinRecord) : c.joins l r =
    (sameKey (c.keyValues .left l.row) (c.keyValues .right r.row) && c.timesMatch l.time r.time) := by
  unfold joins timesMatch
  cases c.spec.windowSizeMicros with
  | some size => rfl
  | none => simp only [neg_le_sub_iff_le_add, tsub_le_iff_right, add_comm]

/-! ### Equal values have equal bytes -/

variable {a : UInt64}

theorem canonicalBits_zero (h : isZeroBits a = true) : canonicalBits a = 0 := by
  simp [canonicalBits, h]

variable {b : Scalar}

theorem encodeKey_of_sameValue {a : Scalar} (h : sameValue a b = true) : a.encodeKey = b.encodeKey := by
  unfold sameValue at h
  split at h
  case h_4 x y =>
    obtain rfl | ⟨hx, hy⟩ := of_decide_eq_true h
    · rfl
    · simp only [encodeKey, canonicalBits_zero hx, canonicalBits_zero hy]
  case h_8 => cases h
  all_goals
    obtain rfl := of_decide_eq_true h
    rfl

variable {as bs : List Scalar}

theorem sameKey_iff : sameKey as bs = true ↔ as.all joinable = true ∧ bs.all joinable = true ∧
      List.Forall₂ (fun a b => sameValue a b = true) as bs := by
  induction as generalizing bs with
  | nil => cases bs <;> simp [sameKey]
  | cons a as ih =>
    cases bs with
    | nil => simp [sameKey]
    | cons b bs =>
      simp only [sameKey, Bool.and_eq_true, ih, all_cons, forall₂_cons]
      tauto

theorem encodeKeyValues_of_forall₂ (h : List.Forall₂ (fun a b => sameValue a b = true) as bs) :
    encodeKeyValues as = encodeKeyValues bs := by
  induction h with
  | nil => rfl
  | cons hab _ ih =>
    simp only [encodeKeyValues, flatMap_cons, encodeKey_of_sameValue hab]
    exact congrArg _ ih

/-! ### Equal bytes come from equal values -/

theorem canonicalBits_injective {b : UInt64} (ha : isNaNBits a = false) (hb : isNaNBits b = false)
    (h : canonicalBits a = canonicalBits b) : a = b ∨ (isZeroBits a = true ∧ isZeroBits b = true) := by
  have hz : isZeroBits 0 = true := by decide
  cases hza : isZeroBits a <;> cases hzb : isZeroBits b
  · simp only [canonicalBits, hza, hzb, ha, hb] at h
    exact .inl h
  · simp only [canonicalBits, hza, hzb, ha] at h
    rw [show a = 0 from h, hz] at hza
    cases hza
  · simp only [canonicalBits, hza, hzb, hb] at h
    rw [← show (0 : UInt64) = b from h, hz] at hzb
    cases hzb
  · exact .inr ⟨rfl, rfl⟩

theorem sameValue_of_canonical {a : Scalar} (ha : a.Encodable) (hja : joinable a = true) (hjb : joinable b = true)
    (h : a.canonical = b.canonical) : sameValue a b = true := by
  cases a with
  | float64 x =>
    cases b with
    | float64 y =>
      simp only [joinable, isNull, isNaN, Bool.not_false, Bool.true_and, Bool.not_eq_true'] at hja hjb
      simpa [sameValue] using canonicalBits_injective hja hjb (float64.inj h)
    | _ => cases h
  | null => cases hja
  | dynamic v => exact ha.elim
  | _ => cases b <;> first | (cases h; simp [sameValue]) | cases h

theorem forall₂_of_canonical (ha : ∀ a ∈ as, a.Encodable) (hja : as.all joinable = true)
    (hjb : bs.all joinable = true) (h : as.map canonical = bs.map canonical) :
    List.Forall₂ (fun a b => sameValue a b = true) as bs := by
  induction as generalizing bs with
  | nil =>
    obtain rfl : bs = [] := by simpa using h.symm
    exact .nil
  | cons a as ih =>
    cases bs with
    | nil => cases h
    | cons b bs =>
      obtain ⟨hab, hr⟩ := cons.inj h
      obtain ⟨ha₀, ha⟩ := List.forall_mem_cons.mp ha
      rw [all_cons, Bool.and_eq_true] at hja hjb
      exact .cons (sameValue_of_canonical ha₀ hja.1 hjb.1 hab) (ih ha hja.2 hjb.2 hr)

/-! ### Records -/

structure JoinRecord.Formed (c : JoinConfig) (side : Side) (a : JoinRecord) : Prop where
  key : a.key = encodeKeyValues (c.keyValues side a.row)
  matchable : a.matchable = (c.keyValues side a.row).all joinable
  closes : c.closeTime side a.time = some a.expires

/-- What is joinable in the key of the row can be encoded without loss. -/
def KeyEncodable (c : JoinConfig) (side : Side) (row : Row) : Prop :=
  ∀ v ∈ c.keyValues side row, joinable v = true → v.Encodable

variable {c : JoinConfig} {l r : JoinRecord}

/-- **Rows that join are found.** -/
theorem matchRecords_of_joins (hl : l.Formed c .left) (hr : r.Formed c .right) (h : c.joins l r = true) :
    c.matchRecords .left l r = true := by
  rw [JoinConfig.joins_eq, Bool.and_eq_true, sameKey_iff] at h
  obtain ⟨⟨hjl, hjr, hs⟩, ht⟩ := h
  simp only [JoinConfig.matchRecords, Side.orient, hl.matchable, hr.matchable, hl.key, hr.key, hjl, hjr,
    encodeKeyValues_of_forall₂ hs, ht, beq_self_eq_true, Bool.and_self]

/-- **Rows that are found join**, if their keys are encoded without loss. -/
theorem joins_of_matchRecords (hl : l.Formed c .left) (hr : r.Formed c .right) (hel : KeyEncodable c .left l.row)
    (her : KeyEncodable c .right r.row) (h : c.matchRecords .left l r = true) : c.joins l r = true := by
  simp only [JoinConfig.matchRecords, Side.orient, hl.matchable, hr.matchable, hl.key, hr.key, Bool.and_eq_true,
    beq_iff_eq] at h
  obtain ⟨⟨⟨hjl, hjr⟩, hk⟩, ht⟩ := h
  have he' : ∀ v ∈ c.keyValues .left l.row, v.Encodable := fun v hv => hel v hv (List.all_eq_true.mp hjl v hv)
  have her' : ∀ v ∈ c.keyValues .right r.row, v.Encodable := fun v hv => her v hv (List.all_eq_true.mp hjr v hv)
  rw [JoinConfig.joins_eq, Bool.and_eq_true, sameKey_iff]
  exact ⟨⟨hjl, hjr, forall₂_of_canonical he' hjl hjr (encodeKeyValues_injective he' her' hk)⟩, ht⟩

/-! ### Rows within the bound -/

variable {n : ℕ}

theorem of_satAdd_le {a b : ℕ} (h : satAdd a b ≤ n) (hn : n < usizeMax) : a ≤ n ∧ b ≤ n := by
  unfold satAdd at h
  omega

theorem of_foldl_satAdd_le {α : Type} {f : α → ℕ} {l : List α} {a : ℕ}
    (h : l.foldl (fun s v => satAdd s (f v)) a ≤ n) (hn : n < usizeMax) : a ≤ n ∧ ∀ v ∈ l, f v ≤ n := by
  induction l generalizing a with
  | nil => exact ⟨h, by simp⟩
  | cons v rest ih =>
    obtain ⟨hv, hr⟩ := ih h
    obtain ⟨ha, hv⟩ := of_satAdd_le hv hn
    exact ⟨ha, List.forall_mem_cons.mpr ⟨hv, hr⟩⟩

variable {v : Scalar}

theorem encodable_of_le (h : v.residentHeapBytes ≤ n) (hn : n < 2 ^ 32)
    (hd : ∀ d, v ≠ .dynamic d) : v.Encodable := by
  have hm : n < usizeMax := by unfold usizeMax; omega
  cases v with
  | utf8 s | bytes b => exact lt_of_le_of_lt (of_satAdd_le h hm).1 hn
  | dynamic d => exact absurd rfl (hd d)
  | _ => trivial

def JoinConfig.ScalarKeys (c : JoinConfig) : Prop :=
  ∀ side, ∀ i ∈ c.keyIndices side, ∃ f, (c.schemas side).fields[i]? = some f ∧
    ∃ ty, identicalScalarTypes f.dataType ty = true ∨ identicalScalarTypes ty f.dataType = true

theorem not_dynamic_of_matchesType {ty ty' : DataType}
    (hty : identicalScalarTypes ty ty' = true ∨ identicalScalarTypes ty' ty = true) (h : v.matchesType ty = true)
    (d : DynamicValue) : v ≠ .dynamic d := by
  rintro rfl
  cases ty <;> cases ty' <;> simp [identicalScalarTypes, matchesType] at hty h

/-- **The key of a checked row within the output bound is encoded without loss.** -/
theorem keyEncodable {side : Side} {row : Row} (hk : c.ScalarKeys)
    (hr : checkRow (c.schemas side) row = .ok ()) (hs : row.residentBytes ≤ n) (hn : n < 2 ^ 32) :
    KeyEncodable c side row := by
  intro v hv hj
  obtain ⟨i, hi, rfl⟩ := List.mem_map.mp hv
  obtain ⟨f, hf, ty, hty⟩ := hk side i hi
  obtain ⟨v, hv, -, hm⟩ := (checkRow_eq_ok.mp hr).takes hf
  have hg : row.values.getD i .null = v := by simp [getD_eq_getElem?_getD, hv]
  rw [hg] at hj ⊢
  have hnu : v.isNull = false := by
    rw [joinable, Bool.and_eq_true, Bool.not_eq_true'] at hj
    exact hj.1
  have hma : n < usizeMax := by unfold usizeMax; omega
  exact encodable_of_le ((of_foldl_satAdd_le hs hma).2 v (mem_of_getElem? hv)) hn
    (not_dynamic_of_matchesType hty (hm hnu))

/-! ### The bound -/

theorem of_outputBound_le {width : ℕ} (h : JoinConfig.outputBound l (some r) width ≤ n) (hn : n < usizeMax) :
    l.row.residentBytes ≤ n ∧ r.row.residentBytes ≤ n :=
  of_satAdd_le (of_satAdd_le (of_satAdd_le h hn).1 hn).1 hn

namespace BoundedJoin

variable {j : BoundedJoin} {side : Side}

theorem fanoutFrom_ok {record : JoinRecord} {count bytes : ℕ} {l : List (ℕ × JoinRecord)}
    (h : j.fanoutFrom record count bytes l = .ok ()) (hm : j.spec.maxOutputBytesPerRow < usizeMax) :
    ∀ e ∈ l, JoinConfig.outputBound record (some e.2) j.output.fields.length ≤ j.spec.maxOutputBytesPerRow := by
  induction l generalizing count bytes with
  | nil => simp
  | cons e rest ih =>
    unfold fanoutFrom at h
    dsimp only at h
    split_ifs at h with hb
    exact List.forall_mem_cons.mpr ⟨(of_satAdd_le (not_lt.mp (not_or.mp hb).2) hm).2, ih h⟩

theorem checkFanout_ok {pending : Pending} (h : j.checkFanout side pending = .ok ())
    (hm : j.spec.maxOutputBytesPerRow < usizeMax) : ∀ e ∈ j.partners side pending.record,
      pending.record.row.residentBytes ≤ j.spec.maxOutputBytesPerRow ∧
        e.2.row.residentBytes ≤ j.spec.maxOutputBytesPerRow := by
  obtain ⟨_, hf, -⟩ := bind_eq_ok.mp h
  exact fun e he => of_outputBound_le (fanoutFrom_ok hf hm e he) hm

theorem indexOfName_of_fieldByName {schema : Schema} {name : String} {f : Field}
    (h : schema.fieldByName name = some f) : schema.fields[(schema.indexOfName name).getD 0]? = some f := by
  have hf : ∀ l : List Field, l.find? (fun f => f.name = name) = some f →
      ∃ i, l.findIdx? (fun f => f.name = name) = some i ∧ l[i]? = some f := by
    intro l
    induction l with
    | nil => simp
    | cons g rest ih =>
      intro h
      by_cases hg : g.name = name
      · exact ⟨0, by simp [hg, findIdx?_cons], by simpa [hg] using h⟩
      · obtain ⟨i, hi, hge⟩ := ih (by simpa [hg] using h)
        exact ⟨i + 1, by simp [hg, hi, findIdx?_cons], by simpa using hge⟩
  obtain ⟨i, hi, hge⟩ := hf _ h
  rw [Schema.indexOfName, hi]
  exact hge

theorem scalarKeys_new {spec : StreamJoinSpec} {left right : Schema} {budgetKeys maxKeys : ℕ}
    (h : new spec left right budgetKeys maxKeys = .ok j) : j.ScalarKeys := by
  obtain ⟨output, hpl, h⟩ := bind_eq_ok.mp h
  cases h
  obtain ⟨hli, -, hpa, -⟩ := joinOutput_ok hpl
  have hl : spec.leftKeys.length = spec.rightKeys.length := by
    simp only [StreamJoinSpec.limitsOk, decide_eq_true_eq] at hli
    exact hli.2.2.1
  have hc : ∀ p ∈ spec.leftKeys.zip spec.rightKeys, ∃ f g, left.fieldByName p.1 = some f ∧
      right.fieldByName p.2 = some g ∧ identicalScalarTypes f.dataType g.dataType = true := by
    intro p hp
    have h := hpa p hp
    unfold checkKeyPair at h
    split at h
    · cases h
    · rename_i f hf
      split at h
      · cases h
      · rename_i g hg
        exact ⟨f, g, hf, hg, by simpa using refuseIf_eq_ok.mp h⟩
  intro side i hi
  cases side with
  | left =>
    obtain ⟨k, hk, rfl⟩ := List.mem_map.mp hi
    rw [← map_fst_zip hl.le] at hk
    obtain ⟨p, hp, rfl⟩ := List.mem_map.mp hk
    obtain ⟨f, g, hf, -, hty⟩ := hc p hp
    exact ⟨f, indexOfName_of_fieldByName hf, g.dataType, .inl hty⟩
  | right =>
    obtain ⟨k, hk, rfl⟩ := List.mem_map.mp hi
    rw [← map_snd_zip hl.ge] at hk
    obtain ⟨p, hp, rfl⟩ := List.mem_map.mp hk
    obtain ⟨f, g, -, hg, hty⟩ := hc p hp
    exact ⟨g, indexOfName_of_fieldByName hg, f.dataType, .inr hty⟩

end BoundedJoin

end Sparrow.Runtime
