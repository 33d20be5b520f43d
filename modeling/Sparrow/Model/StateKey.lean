import Sparrow.Model.ValueCodec

/-!
# State keys

`StateKey` (`sparrow-runtime/src/state.rs`) compares the encodings of its values
(`Scalar::encode_key`, `sparrow-model/src/scalar.rs`).

## What is proved

* `DynamicValue.encodeKey_append_inj` and its like for scalars — an encoding can be read
  back, whatever follows, up to `Alike`: one zero, one NaN, and the fields of an object in
  any order in which fields of one name keep theirs.
-/

namespace Sparrow.Model

open Library List

/-- `StateKey`. -/
structure StateKey where
  operator : ℕ
  slot : ℕ
  key : List Scalar
  encoded : Bytes

/-- `StateKey::new`; a detached copy is the same value. -/
def StateKey.new (operator slot : ℕ) (key : List Scalar) : StateKey :=
  { operator, slot, key, encoded := encodeKeyValues key }

/-- `PartialEq for StateKey`. -/
instance : BEq StateKey where
  beq a b := a.operator = b.operator && a.slot = b.slot && a.encoded = b.encoded

/-! ### Values that have the same key -/

/-- Fields in the order of their names. -/
abbrev byName {α : Type} (a b : String × α) : Prop := utf8Bytes a.1 ≤ utf8Bytes b.1

/-- What a key takes for the same. -/
inductive DynamicValue.Alike : DynamicValue → DynamicValue → Prop where
  | same (v : DynamicValue) : Alike v v
  | float64 {a b : UInt64} (h : canonicalBits a = canonicalBits b) : Alike (.float64 a) (.float64 b)
  | array {vs ws : List DynamicValue} (hlen : vs.length = ws.length) (h : ∀ p ∈ vs.zip ws, Alike p.1 p.2) :
      Alike (.array vs) (.array ws)
  /-- Sorted by name, with fields of one name in the order they had, they are alike. -/
  | object {vs ws : List (String × DynamicValue)} (hlen : vs.length = ws.length)
      (hnames : ∀ p ∈ (vs.insertionSort byName).zip (ws.insertionSort byName), p.1.1 = p.2.1)
      (h : ∀ p ∈ (vs.insertionSort byName).zip (ws.insertionSort byName), Alike p.1.2 p.2.2) :
        Alike (.object vs) (.object ws)

/-- Strings, byte strings and slices of a length that their prefix holds. -/
inductive DynamicValue.Sized : DynamicValue → Prop where
  | null : Sized .null
  | bool (v : Bool) : Sized (.bool v)
  | int64 (v : Int64) : Sized (.int64 v)
  | uInt64 (v : UInt64) : Sized (.uInt64 v)
  | float64 (bits : UInt64) : Sized (.float64 bits)
  | utf8 {v : String} (h : (utf8Bytes v).length < 2 ^ 32) : Sized (.utf8 v)
  | bytes {v : Bytes} (h : v.length < 2 ^ 32) : Sized (.bytes v)
  | array {vs : List DynamicValue} (hlen : vs.length < 2 ^ 64) (h : ∀ v ∈ vs, Sized v) : Sized (.array vs)
  | object {vs : List (String × DynamicValue)} (hlen : vs.length < 2 ^ 64)
      (hnames : ∀ e ∈ vs, (utf8Bytes e.1).length < 2 ^ 32) (h : ∀ e ∈ vs, Sized e.2) : Sized (.object vs)

/-! ### Reading back -/

variable {r : Bytes} {r' : Bytes}

theorem flatten_append_inj {α : Type} {f : α → Bytes} {R : α → α → Prop} {l l' : List α}
    (hl : l.length = l'.length) (hf : ∀ a ∈ l, ∀ b ∈ l', ∀ {r r'}, f a ++ r = f b ++ r' → R a b ∧ r = r')
    (h : (l.map f).flatten ++ r = (l'.map f).flatten ++ r') : (∀ p ∈ l.zip l', R p.1 p.2) ∧ r = r' := by
  induction l generalizing l' with
  | nil =>
    obtain rfl := List.length_eq_zero_iff.mp hl.symm
    exact ⟨by simp, h⟩
  | cons a l ih =>
    cases l' with
    | nil => cases hl
    | cons b l' =>
      simp only [map_cons, flatten_cons, append_assoc] at h
      obtain ⟨hab, h⟩ := hf a mem_cons_self b mem_cons_self h
      obtain ⟨hr, rfl⟩ := ih (Nat.succ.inj hl)
        (fun a ha b hb => hf a (mem_cons_of_mem _ ha) b (mem_cons_of_mem _ hb)) h
      exact ⟨List.forall_mem_cons.mpr ⟨hab, hr⟩, rfl⟩

theorem flatten_congr {α : Type} {f : α → Bytes} {l l' : List α} (hl : l.length = l'.length)
    (h : ∀ p ∈ l.zip l', f p.1 = f p.2) : (l.map f).flatten = (l'.map f).flatten := by
  have hf : List.Forall₂ (fun a b => f a = f b) l l' := List.forall₂_iff_zip.mpr ⟨hl, fun hp => h _ hp⟩
  have hm := List.forall₂_map_left_iff.mpr (List.forall₂_map_right_iff.mpr hf)
  rw [forall₂_eq_eq_eq] at hm
  rw [hm]

theorem leBytes_append_inj {w m n : ℕ} (hm : m < 256 ^ w) (hn : n < 256 ^ w)
    (h : leBytes w m ++ r = leBytes w n ++ r') : m = n ∧ r = r' := by
  obtain ⟨hb, rfl⟩ := append_inj h (by simp)
  exact ⟨leBytes_injOn hm hn hb, rfl⟩

theorem word_append_inj {a b : UInt64} (h : leBytes 8 a.toNat ++ r = leBytes 8 b.toNat ++ r') : a = b ∧ r = r' := by
  obtain ⟨hn, rfl⟩ := leBytes_append_inj a.toNat_lt b.toNat_lt h
  exact ⟨UInt64.toNat_inj.mp hn, rfl⟩

theorem int64_ext {a b : Int64} (h : a.toUInt64 = b.toUInt64) : a = b := by
  obtain ⟨a⟩ := a
  exact congrArg _ h

theorem lengthed_append_inj {w : ℕ} {a b : Bytes} (ha : a.length < 256 ^ w) (hb : b.length < 256 ^ w)
    (h : leBytes w a.length ++ a ++ r = leBytes w b.length ++ b ++ r') : a = b ∧ r = r' := by
  simp only [append_assoc] at h
  obtain ⟨hl, h⟩ := leBytes_append_inj ha hb h
  exact append_inj h hl

theorem utf8Bytes_injective : Function.Injective utf8Bytes := fun a b h => by
  simpa using congrArg stringOfUtf8 h

theorem encodeUtf8_append_inj {a b : String} (ha : (utf8Bytes a).length < 2 ^ 32)
    (hb : (utf8Bytes b).length < 2 ^ 32) (h : encodeUtf8 a ++ r = encodeUtf8 b ++ r') : a = b ∧ r = r' := by
  obtain ⟨hby, rfl⟩ := lengthed_append_inj ha hb (cons.inj h).2
  exact ⟨utf8Bytes_injective hby, rfl⟩

theorem encodeElements_eq (l : List DynamicValue) : encodeElements l = l.map DynamicValue.encodeKey := by
  induction l with
  | nil => rfl
  | cons v l ih => rw [encodeElements, ih, map_cons]

theorem encodeEntries_eq (l : List (String × DynamicValue)) :
    encodeEntries l = l.map fun e => (e.1, e.2.encodeKey) := by
  induction l with
  | nil => rfl
  | cons e l ih => rw [encodeEntries, ih, map_cons]

theorem encodeKey_object (vs : List (String × DynamicValue)) :
    (DynamicValue.object vs).encodeKey = 10 :: leBytes 8 vs.length ++
      ((vs.insertionSort byName).map fun e => encodeUtf8 e.1 ++ e.2.encodeKey).flatten := by
  rw [DynamicValue.encodeKey, encodeEntries_eq]
  have hs := map_insertionSort byName byName (fun e : String × DynamicValue => (e.1, e.2.encodeKey)) vs
    fun _ _ _ _ => Iff.rfl
  rw [← hs, map_map]
  rfl

theorem DynamicValue.Alike.encodeKey_eq {v w : DynamicValue} (h : v.Alike w) : v.encodeKey = w.encodeKey := by
  induction h with
  | same v => rfl
  | float64 h => rw [encodeKey, encodeKey, h]
  | array hl _ ih => rw [encodeKey, encodeKey, encodeElements_eq, encodeElements_eq, hl, flatten_congr hl ih]
  | object hl hn _ ih =>
    rw [encodeKey_object, encodeKey_object, hl]
    refine congrArg _ (flatten_congr (by simpa using hl) fun p hp => ?_)
    rw [hn p hp, ih p hp]

/-- **An encoding is read back, whatever follows.** -/
theorem DynamicValue.encodeKey_append_inj {v w : DynamicValue} (hv : v.Sized) (hw : w.Sized)
    (h : v.encodeKey ++ r = w.encodeKey ++ r') : v.Alike w ∧ r = r' := by
  -- the tags tell the constructors apart
  induction hv generalizing w r r' <;> cases hw <;>
    try (simp [encodeKey, encodeInt64, encodeUtf8, encodeBytes] at h; done)
  case null.null => exact ⟨.same _, (cons.inj h).2⟩
  case bool.bool a b =>
    have h := (cons.inj h).2
    cases a <;> cases b <;> simp_all [Alike.same]
  case int64.int64 a b =>
    obtain ⟨hab, rfl⟩ := word_append_inj (cons.inj h).2
    rw [int64_ext hab]
    exact ⟨.same _, rfl⟩
  case uInt64.uInt64 a b =>
    obtain ⟨rfl, rfl⟩ := word_append_inj (cons.inj h).2
    exact ⟨.same _, rfl⟩
  case float64.float64 a b =>
    obtain ⟨hab, rfl⟩ := word_append_inj (cons.inj h).2
    exact ⟨.float64 hab, rfl⟩
  case utf8.utf8 ha _ hb =>
    obtain ⟨rfl, rfl⟩ := encodeUtf8_append_inj ha hb h
    exact ⟨.same _, rfl⟩
  case bytes.bytes ha _ hb =>
    obtain ⟨rfl, rfl⟩ := lengthed_append_inj ha hb (cons.inj h).2
    exact ⟨.same _, rfl⟩
  case array.array hl _ ih ws hl' hw =>
    simp only [encodeKey, encodeElements_eq, cons_append, append_assoc, cons.injEq, true_and] at h
    obtain ⟨hl, h⟩ := leBytes_append_inj (by omega) (by omega) h
    obtain ⟨hal, rfl⟩ := flatten_append_inj hl (fun v hv w hw' _ _ => ih v hv (hw w hw')) h
    exact ⟨.array hl hal, rfl⟩
  case object.object vs hl hna _ ih ws hl' hn' hw =>
    simp only [encodeKey_object, cons_append, append_assoc, cons.injEq, true_and] at h
    obtain ⟨hl, h⟩ := leBytes_append_inj (by omega) (by omega) h
    have hm (l : List (String × DynamicValue)) := (perm_insertionSort byName l).subset
    have hf : ∀ a ∈ List.insertionSort byName vs, ∀ b ∈ ws.insertionSort byName, ∀ {r r'},
        encodeUtf8 a.1 ++ a.2.encodeKey ++ r = encodeUtf8 b.1 ++ b.2.encodeKey ++ r' →
          (a.1 = b.1 ∧ a.2.Alike b.2) ∧ r = r' := by
      intro a ha b hb r r' heq
      simp only [append_assoc] at heq
      obtain ⟨hn, heq⟩ := encodeUtf8_append_inj (hna a (hm _ ha)) (hn' b (hm _ hb)) heq
      obtain ⟨hva, rfl⟩ := ih a (hm _ ha) (hw b (hm _ hb)) heq
      exact ⟨⟨hn, hva⟩, rfl⟩
    obtain ⟨hal, rfl⟩ := flatten_append_inj (by simpa using hl) hf h
    exact ⟨.object hl (fun p hp => (hal p hp).1) fun p hp => (hal p hp).2, rfl⟩

/-! ### Scalars and keys -/

inductive Scalar.Alike : Scalar → Scalar → Prop where
  | same (v : Scalar) : Alike v v
  | float64 {a b : UInt64} (h : canonicalBits a = canonicalBits b) : Alike (.float64 a) (.float64 b)
  | dynamic {v w : DynamicValue} (h : v.Alike w) : Alike (.dynamic v) (.dynamic w)

/-- Strings, byte strings and slices of a length that their prefix holds. -/
def Scalar.Sized : Scalar → Prop
  | .utf8 v => (utf8Bytes v).length < 2 ^ 32
  | .bytes v => v.length < 2 ^ 32
  | .dynamic v => v.Sized
  | _ => True

theorem Scalar.Alike.encodeKey_eq {v w : Scalar} (h : v.Alike w) : v.encodeKey = w.encodeKey := by
  cases h with
  | same => rfl
  | float64 h => rw [encodeKey, encodeKey, h]
  | dynamic h => rw [encodeKey, encodeKey, h.encodeKey_eq]

theorem Scalar.encodeKey_append_inj {v w : Scalar} (hv : v.Sized) (hw : w.Sized)
    (h : v.encodeKey ++ r = w.encodeKey ++ r') : v.Alike w ∧ r = r' := by
  cases v <;> cases w <;> try (simp [encodeKey, encodeInt64, encodeUtf8, encodeBytes] at h; done)
  case null.null => exact ⟨.same _, (cons.inj h).2⟩
  case bool.bool a b =>
    have h := (cons.inj h).2
    cases a <;> cases b <;> simp_all [Alike.same]
  case int64.int64 a b | timestampMicrosUTC.timestampMicrosUTC a b =>
    obtain ⟨hab, rfl⟩ := word_append_inj (cons.inj h).2
    rw [int64_ext hab]
    exact ⟨.same _, rfl⟩
  case uInt64.uInt64 a b =>
    obtain ⟨rfl, rfl⟩ := word_append_inj (cons.inj h).2
    exact ⟨.same _, rfl⟩
  case float64.float64 a b =>
    obtain ⟨hab, rfl⟩ := word_append_inj (cons.inj h).2
    exact ⟨.float64 hab, rfl⟩
  case utf8.utf8 a b =>
    obtain ⟨rfl, rfl⟩ := encodeUtf8_append_inj hv hw h
    exact ⟨.same _, rfl⟩
  case bytes.bytes a b =>
    obtain ⟨rfl, rfl⟩ := lengthed_append_inj hv hw (cons.inj h).2
    exact ⟨.same _, rfl⟩
  case dynamic.dynamic a b =>
    obtain ⟨ha, rfl⟩ := DynamicValue.encodeKey_append_inj hv hw (cons.inj h).2
    exact ⟨.dynamic ha, rfl⟩

theorem encodeKeyValues_cons (v : Scalar) (vs : List Scalar) :
    encodeKeyValues (v :: vs) = v.encodeKey ++ (0xff :: encodeKeyValues vs) := by
  simp [encodeKeyValues]

theorem encodeKeyValues_append_inj {vs ws : List Scalar} (hvs : ∀ v ∈ vs, v.Sized) (hws : ∀ w ∈ ws, w.Sized)
    (hl : vs.length = ws.length ∨ r = []) (h : encodeKeyValues vs ++ r = encodeKeyValues ws) :
    List.Forall₂ Scalar.Alike vs ws ∧ r = [] := by
  induction vs generalizing ws with
  | nil =>
    cases ws with
    | nil => exact ⟨.nil, h⟩
    | cons w ws =>
      obtain rfl := hl.resolve_left (by simp)
      simp [encodeKeyValues] at h
  | cons v vs ih =>
    cases ws with
    | nil => simp [encodeKeyValues] at h
    | cons w ws =>
      rw [forall_mem_cons] at hvs hws
      rw [encodeKeyValues_cons, encodeKeyValues_cons, append_assoc] at h
      obtain ⟨ha, h⟩ := Scalar.encodeKey_append_inj hvs.1 hws.1 h
      obtain ⟨hr, rfl⟩ := ih hvs.2 hws.2 (hl.imp_left Nat.succ.inj) (cons.inj h).2
      exact ⟨.cons ha hr, rfl⟩

theorem encodeKeyValues_congr {vs ws : List Scalar} (h : List.Forall₂ Scalar.Alike vs ws) :
    encodeKeyValues vs = encodeKeyValues ws := by
  induction h with
  | nil => rfl
  | cons hvw _ ih => rw [encodeKeyValues_cons, encodeKeyValues_cons, hvw.encodeKey_eq, ih]

theorem DynamicValue.Alike.of_perm {vs ws : List (String × DynamicValue)} (hpe : vs.Perm ws)
    (hn : (vs.map Prod.fst).Nodup) : (DynamicValue.object vs).Alike (.object ws) := by
  have hs : vs.insertionSort byName = ws.insertionSort byName := by
    refine Perm.eq_of_pairwise (fun a b ha hb hab hba => ?_) (pairwise_insertionSort byName vs)
      (pairwise_insertionSort byName ws)
      ((perm_insertionSort _ vs).trans (hpe.trans (perm_insertionSort _ ws).symm))
    rw [mem_insertionSort] at ha hb
    exact inj_on_of_nodup_map hn ha (hpe.mem_iff.mpr hb) (utf8Bytes_injective (le_antisymm hab hba))
  have hz : ∀ p ∈ (vs.insertionSort byName).zip (ws.insertionSort byName), p.1 = p.2 := by
    rw [hs]
    exact fun p hp => (List.forall₂_iff_zip.mp (forall₂_refl _)).2 hp
  exact .object hpe.length_eq (fun p hp => by rw [hz p hp]) fun p hp => by rw [hz p hp]; exact .same _

/-- **State keys are equal exactly if their values are pairwise alike**, objects whose fields have different names are
alike in any order of the fields, and no key is a proper initial part of another of the same arity. -/
theorem stateKeys_injective (operator slot : ℕ) (vs ws : List Scalar) (hvs : ∀ v ∈ vs, v.Sized)
    (hws : ∀ w ∈ ws, w.Sized) :
    ((StateKey.new operator slot vs == StateKey.new operator slot ws) = true ↔ List.Forall₂ Scalar.Alike vs ws) ∧
      (∀ {fields fields' : List (String × DynamicValue)}, fields.Perm fields' → (fields.map Prod.fst).Nodup →
        (DynamicValue.object fields).Alike (.object fields')) ∧
      (vs.length = ws.length → (StateKey.new operator slot vs).encoded <+: (StateKey.new operator slot ws).encoded →
        (StateKey.new operator slot vs).encoded = (StateKey.new operator slot ws).encoded) := by
  refine ⟨?_, .of_perm, fun hl ⟨r, hr⟩ => ?_⟩
  · change (decide (operator = operator) && decide (slot = slot) &&
      decide (encodeKeyValues vs = encodeKeyValues ws)) = true ↔ _
    rw [decide_eq_true rfl, decide_eq_true rfl, Bool.true_and, Bool.true_and, decide_eq_true_eq]
    refine ⟨fun h => ?_, encodeKeyValues_congr⟩
    exact (encodeKeyValues_append_inj hvs hws (r := []) (.inr rfl) (by rw [append_nil, h])).1
  · obtain ⟨-, rfl⟩ := encodeKeyValues_append_inj hvs hws (.inl hl) hr
    simpa using hr

/-- Two fields of one name, and one between or after them. -/
def interleaved : List (String × DynamicValue) := [("a", .int64 1), ("b", .int64 2), ("a", .int64 3)]

/-- The same with the two fields side by side. -/
def adjacent : List (String × DynamicValue) := [("a", .int64 1), ("a", .int64 3), ("b", .int64 2)]

theorem repeated_names_collide :
    (StateKey.new 0 0 [.dynamic (.object interleaved)] == StateKey.new 0 0 [.dynamic (.object adjacent)]) = true ∧
      interleaved.map Prod.fst ≠ adjacent.map Prod.fst ∧ ¬(interleaved.map Prod.fst).Nodup := by
  refine ⟨?_, by decide, by decide⟩
  decide

theorem stateKeys_injective_zeros :
    (StateKey.new 0 0 [.float64 0x8000000000000000, .utf8 "x"] == StateKey.new 0 0 [.float64 0, .utf8 "x"]) = true := by
  have hs (bits : UInt64) : ∀ v ∈ [Scalar.float64 bits, .utf8 "x"], v.Sized := by
    refine List.forall_mem_cons.mpr ⟨trivial, List.forall_mem_singleton.mpr ?_⟩
    change (utf8Bytes "x").length < 2 ^ 32
    decide
  refine ((stateKeys_injective 0 0 _ _ (hs _) (hs _)).1).mpr ?_
  exact .cons (.float64 (by decide)) (.cons (.same _) .nil)

end Sparrow.Model
