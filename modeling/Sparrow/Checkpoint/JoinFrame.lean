import Sparrow.Runtime.JoinKept

/-!
# The frame of a join

What a settled join writes at a barrier is read back: the numbers, the progress of its
inputs and of its output, and every retained row with its number and mark.

## What is proved

* `Reads` facts for each part of the frame, in the order in which they are written.
* `reads_joinFrame` — the whole frame.
-/

namespace Sparrow.Runtime

open Library Model Plan Parser List BoundedJoin

/-! ### Words -/

theorem reads_word {w n : ℕ} (h : n < 256 ^ w) : Reads (word w) (leBytes w n) n := by
  have ht := Reads.take (length_leBytes w n) (invalidFrame "truncated analysis frame")
  have hw := ht.bind (f := fun bytes => pure (ofLeBytes bytes)) (.pure _)
  rw [append_nil, ofLeBytes_leBytes_of_lt h] at hw
  exact hw

theorem toI64_putI64 {v : ℤ} (hl : -1 ≤ v) (hh : v ≤ i64Max) : toI64 (v % 2 ^ 64).toNat = v := by
  unfold toI64
  unfold i64Max at hh
  split_ifs <;> omega

/-! ### Progress -/

variable {p : Progress} {operator : ℕ} {s : JoinState}

theorem Progress.Sound.low (h : p.Sound) : -1 ≤ p.watermark.getD (-1) := by
  have hv := refuseIf_eq_ok.mp h.1
  cases hwm : p.watermark with
  | none => simp
  | some wm =>
    simp only [hwm, Option.any_some, Bool.or_eq_true, decide_eq_true_eq, not_or, not_lt] at hv
    simpa using (by omega : -1 ≤ wm)

theorem Progress.Sound.high (h : p.Sound) : p.watermark.getD (-1) ≤ i64Max := by
  cases hwm : p.watermark with
  | none => decide
  | some wm => exact h.2 wm hwm

theorem Progress.flags_le (p : Progress) : p.flags ≤ 3 := by
  obtain ⟨_, idle, eof⟩ := p
  cases idle <;> cases eof <;> simp [Progress.flags]

theorem Progress.Sound.fromControl (h : p.Sound) : Progress.fromControl (p.watermark.getD (-1)) p.flags = .ok p := by
  have hb : ¬ (p.watermark.getD (-1) < -1 ∨ 3 < p.flags) := not_or.mpr ⟨not_lt.mpr h.low, not_lt.mpr p.flags_le⟩
  have hs : ({ watermark := if p.watermark.getD (-1) ≠ -1 then some (p.watermark.getD (-1)) else none
               idle := p.flags % 2 ≠ 0, eof := p.flags / 2 % 2 ≠ 0 } : Progress) = p := by
    have hv := refuseIf_eq_ok.mp h.1
    obtain ⟨watermark, idle, eof⟩ := p
    cases watermark <;> cases idle <;> cases eof <;> simp_all [Progress.flags] <;> omega
  exact guard_eq_ok.mpr ⟨hb, bind_eq_ok.mpr ⟨(), hs.symm ▸ h.1, congrArg Except.ok hs⟩⟩

theorem reads_progress (h : p.Sound) : Reads progressFrame (putProgress p) p := by
  refine (reads_word (by omega)).bind ?_
  refine (reads_word (lt_of_le_of_lt p.flags_le (by decide))).bind ?_
  rw [toI64_putI64 h.low h.high, h.fromControl]
  exact .pure p

/-! ### Rows -/

theorem reads_value {v : Scalar} (hv : v.Encodable) :
    Reads valueFrame (valueBytes v) (v, encodedScalarResident (valueBytes v)) := by
  refine .refuse (fun rest => ?_) fun rest => ?_
  · cases v with
    | bool b => cases b <;> rfl
    | _ => rfl
  · have hl : (valueBytes v ++ rest).take ((valueBytes v ++ rest).length - rest.length) = valueBytes v := by simp
    change (decodeValue (valueBytes v ++ rest) >>= fun r =>
      Except.ok ((r.1, encodedScalarResident
        ((valueBytes v ++ rest).take ((valueBytes v ++ rest).length - r.2.length))), r.2)) = _
    rw [decodeValue_valueBytes hv]
    change Except.ok ((v, encodedScalarResident
      ((valueBytes v ++ rest).take ((valueBytes v ++ rest).length - rest.length))), rest) = _
    rw [hl]

def valuesResident (values : List Scalar) : ℕ :=
  values.foldl (fun size v => satAdd size (encodedScalarResident (valueBytes v))) 0

variable {values : List Scalar}

theorem reads_values (h : ∀ v ∈ values, v.Encodable) :
    Reads (valuesFrame values.length) (values.flatMap valueBytes) (values, valuesResident values) := by
  refine Reads.many (G := fun _ v => v.Encodable) (fun s v hv => ?_) fun xs v ys hva => h v (by simp [hva])
  have hr := (reads_value hv).bind (f := fun r => pure (r.1, satAdd s r.2)) (.pure _)
  rwa [append_nil] at hr

theorem length_valueBytes_pos (v : Scalar) : 1 ≤ (valueBytes v).length := by
  cases v <;> simp [valueBytes, Scalar.encodeKey, encodeInt64, encodeUtf8, encodeBytes]

theorem length_values_le (values : List Scalar) : values.length ≤ (values.flatMap valueBytes).length := by
  simpa using mul_length_le_flatMap (l := values) fun v _ => length_valueBytes_pos v

def rowBytes (r : JoinRowFreeze) : Bytes :=
  leBytes 8 r.ordinal ++ (leBytes 1 r.matched.toNat ++
    (leBytes 2 r.row.values.length ++ r.row.values.flatMap valueBytes))

/-- The row can be written: its number, its width and its values. -/
structure JoinRowFreeze.Encodable (r : JoinRowFreeze) (sequence : ℕ) : Prop where
  ordinal : r.ordinal ≤ sequence
  pos : 0 < r.row.values.length
  width : r.row.values.length ≤ 128
  values : ∀ v ∈ r.row.values, v.Encodable

/-- What reading a row leaves: its number, and the resident size. -/
def rowState (s : ℕ × ℕ) (r : JoinRowFreeze) : ℕ × ℕ :=
  (r.ordinal, satAdd s.2 (satAdd (residentCredit (valuesResident r.row.values)) 1))

variable {r : JoinRowFreeze} {sequence : ℕ}

theorem reads_row {s : ℕ × ℕ} (h : r.Encodable sequence) (ha : s.1 < r.ordinal)
    (hse : sequence < 2 ^ 63) : Reads (rowFrame sequence s) (rowBytes r) (r, rowState s r) := by
  obtain ⟨ho, hp, hw, hv⟩ := h
  have hf : r.matched.toNat ≤ 1 := Bool.toNat_le r.matched
  refine (reads_word (by omega)).bind (.refuse (fun _ => ?_) ?_)
  · simp [ha, ho]
  refine (reads_word (by omega)).bind (.refuse (fun _ => ?_) ?_)
  · simpa using hf
  refine (reads_word (by omega)).bind (.refuse (fun rest => ?_) ?_)
  · have := length_values_le r.row.values
    simp only [length_append, Bool.or_eq_false_iff, decide_eq_false_iff_not]
    omega
  rw [← append_nil (r.row.values.flatMap valueBytes)]
  refine (reads_values hv).bind ?_
  have hs : (decide (r.matched.toNat = 1)) = r.matched := by cases r.matched <;> rfl
  rw [hs]
  exact .pure _

theorem length_rowBytes (hp : 0 < r.row.values.length) : 12 ≤ (rowBytes r).length := by
  have := length_values_le r.row.values
  simp only [rowBytes, length_append, length_leBytes]
  omega

variable {rows : List JoinRowFreeze}

theorem foldl_rowState_lt {s : ℕ × ℕ} {n : ℕ} (hs : s.1 < n)
    (h : ∀ r ∈ rows, r.ordinal < n) : (rows.foldl rowState s).1 < n := by
  induction rows generalizing s with
  | nil => exact hs
  | cons r rows ih =>
    obtain ⟨hr, hro⟩ := List.forall_mem_cons.mp h
    exact ih hr hro

variable {entries : ℕ}

theorem reads_rows {total resident : ℕ}
    (h : ∀ r ∈ rows, r.Encodable sequence) (hs : rows.Pairwise fun a b => a.ordinal < b.ordinal)
    (hp : ∀ r ∈ rows, 0 < r.ordinal) (hse : sequence < 2 ^ 63) (hc : rows.length ≤ 4096)
    (he : total + rows.length ≤ entries) :
    Reads (rowsFrame sequence entries total resident) (leBytes 4 rows.length ++ rows.flatMap rowBytes)
      (rows, total + rows.length, (rows.foldl rowState (0, resident)).2) := by
  have hl : rows.length ≤ sequence := by
    have hno : (rows.map (·.ordinal)).Nodup := List.pairwise_map.mpr (hs.imp fun h => h.ne)
    have hsu : rows.map (·.ordinal) ⊆ List.range' 1 sequence := fun n hn => by
      obtain ⟨r, hr, rfl⟩ := List.mem_map.mp hn
      have := hp r hr
      have := (h r hr).ordinal
      rw [mem_range'_1]
      omega
    simpa using (subperm_of_subset hno hsu).length_le
  have hb : rows.length * 12 ≤ (rows.flatMap rowBytes).length :=
    mul_length_le_flatMap fun r hr => length_rowBytes (h r hr).pos
  refine (reads_word (by omega)).bind (.refuse (fun rest => ?_) ?_)
  · simp only [length_append, Bool.or_eq_false_iff, decide_eq_false_iff_not, not_lt]
    unfold satMul
    omega
  rw [← append_nil (rows.flatMap rowBytes)]
  refine (Reads.many (G := fun s r => r.Encodable sequence ∧ s.1 < r.ordinal)
    (fun s r hr => reads_row hr.1 hr.2 hse) fun xs r ys hro => ?_).bind (.pure _)
  subst hro
  have hr : r ∈ xs ++ r :: ys := by simp
  exact ⟨h r hr, foldl_rowState_lt (hp r hr) fun x hx => (List.pairwise_append.mp hs).2.2 x hx r (by simp)⟩

/-! ### The frame -/

theorem reads_header {kind : ℕ} (ho : operator < 2 ^ 32) (hk : kind < 256) (he : entries < 2 ^ 32) :
    Reads parseHeader (leBytes 4 operator ++ leBytes 2 4 ++ leBytes 1 kind ++ leBytes 4 entries)
      (operator, 4, kind, entries) := by
  have h₄ : (leBytes 4 operator ++ leBytes 2 4 ++ leBytes 1 kind ++ leBytes 4 entries).take 4 = leBytes 4 operator := by
    exact take_left' (length_leBytes 4 operator)
  have h₆ : ((leBytes 4 operator ++ leBytes 2 4 ++ leBytes 1 kind ++ leBytes 4 entries).drop 4).take 2
      = leBytes 2 4 := by
    exact take_left' (length_leBytes 2 4)
  have h₇ : ((leBytes 4 operator ++ leBytes 2 4 ++ leBytes 1 kind ++ leBytes 4 entries).drop 6).take 1
      = leBytes 1 kind := by
    exact take_left' (length_leBytes 1 kind)
  have h₁₁ : (leBytes 4 operator ++ leBytes 2 4 ++ leBytes 1 kind ++ leBytes 4 entries).drop 7 = leBytes 4 entries :=
    drop_left' (by simp)
  rw [← append_nil (leBytes 4 operator ++ leBytes 2 4 ++ leBytes 1 kind ++ leBytes 4 entries)]
  refine (Reads.take (by simp) _).bind ?_
  rw [h₄, h₆, h₇, h₁₁, ofLeBytes_leBytes_of_lt (by omega), ofLeBytes_leBytes_of_lt (by omega),
    ofLeBytes_leBytes_of_lt (by omega), ofLeBytes_leBytes_of_lt (by omega)]
  exact .pure _

def frozenRows (rows : SortedMap ℕ JoinRecord) : List JoinRowFreeze :=
  rows.entries.map fun e => { ordinal := e.2.ordinal, matched := e.2.matched, row := e.2.row }

def joinData (s : JoinState) : AnalysisData :=
  .join s.op.sequence s.states s.emitted fun side => frozenRows (s.op.rows side)

theorem joinData_eq (s : JoinState) :
    joinData s = .join (fun | .left => s.op.sequence .left | .right => s.op.sequence .right)
      (fun | .left => s.states .left | .right => s.states .right) s.emitted
      (fun | .left => frozenRows (s.op.rows .left) | .right => frozenRows (s.op.rows .right)) := by
  unfold joinData
  congr 1 <;> funext side <;> cases side <;> rfl

def joinBytes (operator : ℕ) (s : JoinState) : Bytes :=
  (leBytes 4 operator ++ leBytes 2 4 ++ leBytes 1 11 ++ leBytes 4 s.op.retained) ++ ([0x41, 0x4e, 0x46, 0x31] ++
    (leBytes 8 (s.op.sequence .left) ++ (leBytes 8 (s.op.sequence .right) ++ (putProgress (s.states .left) ++
      (putProgress (s.states .right) ++ (putProgress s.emitted ++
        ((leBytes 4 (s.op.rows .left).size ++ (frozenRows (s.op.rows .left)).flatMap rowBytes) ++
          (leBytes 4 (s.op.rows .right).size ++ (frozenRows (s.op.rows .right)).flatMap rowBytes))))))))

/-- What can be written: the rows, and the output's progress. -/
structure JoinState.Encodable (s : JoinState) : Prop where
  rows : ∀ side, ∀ r ∈ frozenRows (s.op.rows side), r.Encodable (s.op.sequence side) ∧ 0 < r.ordinal
  sorted : ∀ side, (frozenRows (s.op.rows side)).Pairwise fun a b => a.ordinal < b.ordinal
  size : ∀ side, (s.op.rows side).size ≤ 4096
  sequence : ∀ side, s.op.sequence side < 2 ^ 63
  inputs : ∀ side, (s.states side).Sound
  emitted : s.emitted.Sound
  activity : s.emitted.eof = s.eof ∧ s.emitted.idle = s.eof

/-- What the frame reserves for its restore. -/
def joinResident (s : JoinState) : ℕ :=
  ((frozenRows (s.op.rows .right)).foldl rowState
    (0, ((frozenRows (s.op.rows .left)).foldl rowState (0, fixedResident)).2)).2

theorem reads_joinFrame (h : s.Encodable) : Reads (joinFrame s.op.retained)
      (leBytes 8 (s.op.sequence .left) ++ (leBytes 8 (s.op.sequence .right) ++ (putProgress (s.states .left) ++
      (putProgress (s.states .right) ++ (putProgress s.emitted ++
        ((leBytes 4 (s.op.rows .left).size ++ (frozenRows (s.op.rows .left)).flatMap rowBytes) ++
          (leBytes 4 (s.op.rows .right).size ++ (frozenRows (s.op.rows .right)).flatMap rowBytes)))))))
      (joinData s, joinResident s) := by
  have hle : ∀ side, (frozenRows (s.op.rows side)).length = (s.op.rows side).size := fun side => length_map ..
  have hl := h.sequence .left
  have hr := h.sequence .right
  refine (reads_word (by omega)).bind ((reads_word (by omega)).bind (.refuse (fun _ => ?_)
    ((reads_progress (h.inputs .left)).bind ((reads_progress (h.inputs .right)).bind
      ((reads_progress h.emitted).bind (.refuse (fun _ => ?_) ?_))))))
  · unfold i64Max
    simp only [Bool.or_eq_false_iff, decide_eq_false_iff_not, not_lt]
    omega
  · simp [h.activity, JoinState.eof]
  · rw [← hle, ← hle]
    refine (reads_rows (fun r hr => (h.rows .left r hr).1) (h.sorted .left) (fun r hr => (h.rows .left r hr).2) hl
      (by rw [hle]; exact h.size .left) (by rw [hle]; unfold retained; omega)).bind ?_
    rw [← append_nil (leBytes 4 (frozenRows (s.op.rows .right)).length ++ _)]
    refine (reads_rows (fun r hr => (h.rows .right r hr).1) (h.sorted .right) (fun r hr => (h.rows .right r hr).2) hr
      (by rw [hle]; exact h.size .right) (by rw [hle, hle]; unfold retained; omega)).bind ?_
    refine .refuse (fun _ => ?_) ?_
    · simp [hle, retained]
    · rw [joinData_eq]
      exact .pure _

variable {limit : ℕ}

/-- **The frame is read back.** -/
theorem reads_joinBytes (h : s.Encodable) (ho : operator < 2 ^ 32) (hl : s.op.retained ≤ limit) :
    Reads (AnalysisFreeze.decode limit) (joinBytes operator s)
      { operator, data := joinData s, resident := joinResident s } := by
  have he : s.op.retained < 2 ^ 32 := by
    have := h.size .left
    have := h.size .right
    unfold retained
    omega
  refine (reads_header ho (by decide) he).bind ?_
  have hg : Reads (fun src => if 4 ≠ 4 ∨ (11 ≠ 10 ∧ 11 ≠ 11) then
      .error (profileMismatch "analysis frame identity/grammar mismatch") else takeFrame 4 src :
        Parser SparrowError Bytes)
      [0x41, 0x4e, 0x46, 0x31] [0x41, 0x4e, 0x46, 0x31] := fun rest => by
    dsimp only
    rw [if_neg (by decide)]
    exact Reads.take rfl _ rest
  refine hg.bind (.refuse (fun _ => rfl) (.refuse (fun _ => ?_) ?_))
  · simpa using hl
  · have hb := (reads_joinFrame h).bind (f := fun r => (pure { operator, data := r.1, resident := r.2 } :
      Parser SparrowError AnalysisFreeze)) (.pure _)
    rw [append_nil] at hb
    exact hb

/-! ### Writing -/

theorem putValues_ok (h : ∀ v ∈ values, v.isDynamic = false) : putValues values = .ok (values.flatMap valueBytes) := by
  have hva : ∀ v ∈ values, encodeValue v = .ok (valueBytes v) := fun v hv => by
    have hp := h v hv
    cases v with
    | dynamic d => cases hp
    | _ => rfl
  rw [putValues, Result.mapM_ok hva, flatMap_def]
  rfl

theorem putRows_ok {rows : SortedMap ℕ JoinRecord} (h : ∀ e ∈ rows.entries, ∀ v ∈ e.2.row.values, v.isDynamic = false) :
    putRows rows = .ok (leBytes 4 rows.size ++ (frozenRows rows).flatMap rowBytes) := by
  have hr : ∀ e ∈ rows.entries, putRecord e.2 =
      .ok (rowBytes { ordinal := e.2.ordinal, matched := e.2.matched, row := e.2.row }) := fun e he => by
    rw [putRecord, putValues_ok (h e he)]
    simp [rowBytes, bind, Except.bind, pure, Except.pure]
  rw [putRows, Result.mapM_ok hr, frozenRows, flatMap_map, flatMap_def]
  rfl

/-- **What a join writes.** -/
theorem encodeState_ok (hd : s.op.durable = true) (hl : s.op.retained ≤ limit)
    (h : ∀ side, ∀ e ∈ (s.op.rows side).entries, ∀ v ∈ e.2.row.values, v.isDynamic = false) :
    s.op.encodeState operator s.states s.emitted limit = .ok (joinBytes operator s) := by
  have hh : frameHeader operator 11 s.op.retained limit =
      .ok (leBytes 4 operator ++ leBytes 2 4 ++ leBytes 1 11 ++ leBytes 4 s.op.retained ++ [0x41, 0x4e, 0x46, 0x31]) :=
    guard_eq_ok.mpr ⟨(not_lt.mpr hl), rfl⟩
  refine guard_eq_ok.mpr ⟨(by simp [hd]), bind_eq_ok.mpr ⟨_, hh, ?_⟩⟩
  refine bind_eq_ok.mpr ⟨_, putRows_ok (h .left), bind_eq_ok.mpr ⟨_, putRows_ok (h .right), ?_⟩⟩
  simp [joinBytes, pure, Except.pure]

end Sparrow.Runtime
