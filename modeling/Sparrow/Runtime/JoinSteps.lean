import Sparrow.Library.Machine
import Sparrow.Runtime.JoinExecutor

/-!
# What the parts of a join do

One lemma for each function of the operator, saying everything a successful call can do.

## What is proved

* `prepare_ok` — when a row is admitted, and as what.
* `emitMatch_ok`, `close_ok` — the row sent, and the operator afterwards.
* `closeExpired_expired` — a drain ends with nothing expired.
-/

namespace Sparrow.Runtime

open Library Model Plan SortedMap Emits Option List

/-! ### Admission -/

def JoinConfig.recordOf (c : JoinConfig) (side : Side) (row : Row) (time expires : ℤ)
    (ordinal : ℕ) : JoinRecord where
  row := row
  key := encodeKeyValues (c.keyValues side row)
  time := time
  expires := expires
  ordinal := ordinal
  matched := false
  matchable := (c.keyValues side row).all fun v => !v.isNull && !v.isNaN

variable {grants : Grants} {row : Row} {pending pending' : Pending} {n id after : ℕ} {now : ℤ}
  {r : JoinRecord}

namespace BoundedJoin

variable {j j' : BoundedJoin} {side : Side}

/-- The row may be retained, with that time and close time. -/
structure Admits (j : BoundedJoin) (side : Side) (row : Row) (time expires : ℤ) : Prop where
  width : row.values.length = (j.schemas side).fields.length
  time_eq : asEventTimeMicros (row.values.getD (j.timeIndices side) .null) = some time
  nonneg : 0 ≤ time
  current : ∀ {wm}, j.watermarks side = some wm → wm ≤ time
  room : (j.rows side).size < j.spec.maxRowsPerSide
  durable : j.durable = true → j.retained < j.maxKeys
  ordinal : ((j.sequence side + 1 : ℕ) : ℤ) ≤ i64Max
  closes : j.closeTime side time = some expires
  keys : j.keys.get? (encodeKeyValues (j.keyValues side row)) = none → j.keys.size < j.maxKeys

/-- What an admitted row is prepared as. -/
def pendingOf (j : BoundedJoin) (side : Side) (row : Row) (time expires : ℤ) : Pending where
  record := j.recordOf side row time expires (j.sequence side + 1)
  newKey := (j.keys.get? (encodeKeyValues (j.keyValues side row))).isNone

variable (c : JoinConfig)

/-- The time of the row is too far ahead of the clock. -/
def isFuture (side : Side) (row : Row) (now : ℤ) : Bool :=
  (asEventTimeMicros (row.values.getD (c.timeIndices side) .null)).any fun t =>
    satAddI now defaultMaxFutureSkewMicros < t

theorem prepare_ok : (j.prepare side row now grants).Ensures fun o =>
    (isFuture j.toJoinConfig side row now = true ∧ o = none) ∨ isFuture j.toJoinConfig side row now = false ∧
      ∃ time expires, j.Admits side row time expires ∧ o = some (j.pendingOf side row time expires) := by
  refine .bind fun _ hw => ?_
  split
  · exact .error
  rename_i time ht
  obtain ⟨ht, hnon⟩ := Option.filter_eq_some_iff.mp ht
  rw [isFuture, ht, any_some, decide_eq_true_eq, decide_eq_false_iff_not]
  split_ifs with hf
  · exact .ok (.inl ⟨hf, rfl⟩)
  refine .bind fun _ hl => .bind fun _ hr => .bind fun _ hdu => .bind fun _ ho => ?_
  have hl := refuseIf_eq_ok.mp hl
  have hdu := refuseIf_eq_ok.mp hdu
  split
  · exact .error
  rename_i expires hc
  refine .bind fun _ _ => ?_
  have ha : (j.keys.get? (encodeKeyValues (j.keyValues side row)) = none → j.keys.size < j.maxKeys) →
      j.Admits side row time expires := fun hk =>
    { width := not_not.mp (refuseIf_eq_ok.mp hw), time_eq := ht, nonneg := by simpa using hnon
      current := fun {wm} hwm => by simpa [hwm] using hl
      room := not_le.mp (refuseIf_eq_ok.mp hr)
      durable := fun hd => by simpa [hd] using hdu
      ordinal := not_lt.mp (refuseIf_eq_ok.mp ho), closes := hc, keys := hk }
  -- a new key must find room
  by_cases hn : (j.keys.get? (encodeKeyValues (j.keyValues side row))).isNone = true
  · simp only [hn, ↓reduceIte]
    refine .bind fun _ hk => .bind fun _ _ => .ok (.inr ⟨hf, time, expires, ha fun _ => ?_, ?_⟩)
    · exact not_le.mp (refuseIf_eq_ok.mp hk)
    · simp [pendingOf, JoinConfig.recordOf, hn]
  · simp only [hn, Bool.false_eq_true, ↓reduceIte]
    refine .ok (.inr ⟨hf, time, expires, ha fun hno => absurd (by simp [hno]) hn, ?_⟩)
    simp [pendingOf, JoinConfig.recordOf, hn]

theorem prepare_eq_some (h : j.prepare side row now grants = .ok (some pending)) :
    ∃ time expires, j.Admits side row time expires ∧ pending = j.pendingOf side row time expires := by
  obtain ⟨-, ⟨⟩⟩ | ⟨-, time, expires, ha, ⟨⟩⟩ := prepare_ok h
  exact ⟨time, expires, ha, rfl⟩

variable {expires time : ℤ}

theorem Admits.fits (h : j.Admits side row time expires) : fitsI64 time = true := by
  have ht := h.time_eq
  have hn := h.nonneg
  rw [fitsI64_iff]
  generalize row.values.getD (j.timeIndices side) .null = v at ht
  refine ⟨by unfold i64Min; omega, ?_⟩
  cases v with
  | int64 v | timestampMicrosUTC v => exact some.inj ht ▸ toInt_le_i64Max v
  | uInt64 v =>
    simp only [asEventTimeMicros] at ht
    split_ifs at ht with hle
    exact some.inj ht ▸ hle
  | _ => cases ht

theorem Admits.prepare (h : j.Admits side row time expires)
    (hno : time ≤ satAddI now defaultMaxFutureSkewMicros) (hg : ∀ site kind n, grants site kind n = .ok ()) :
    j.prepare side row now grants = .ok (some (j.pendingOf side row time expires)) := by
  have hl : ((j.watermarks side).any fun wm => time < wm) = false := by
    cases hwm : j.watermarks side with
    | none => rfl
    | some wm => simpa using h.current hwm
  have hdu : ¬ (j.durable = true ∧ j.retained ≥ j.maxKeys) :=
    fun ⟨hd, hle⟩ => absurd (h.durable hd) (not_lt.mpr hle)
  unfold BoundedJoin.prepare
  simp only [refuseIf, h.width, ne_eq, not_true_eq_false, ↓reduceIte, h.time_eq, filter_some, h.nonneg,
    decide_true, not_lt.mpr hno, hl, Bool.false_eq_true, not_le.mpr h.room, hdu,
      not_lt.mpr h.ordinal, h.closes,
    hg, bind, Except.bind, pure, Except.pure]
  by_cases hn : j.keys.get? (encodeKeyValues (j.keyValues side row)) = none
  · simp [hn, not_le.mpr (h.keys hn), pendingOf, JoinConfig.recordOf]
  · have hn' : (j.keys.get? (encodeKeyValues (j.keyValues side row))).isNone = false := by
      simpa [isSome_iff_ne_none] using hn
    simp [hn', pendingOf, JoinConfig.recordOf]

/-! ### Sending -/

theorem batch_ok {c : JoinConfig} {l : JoinRecord} {r : Option JoinRecord} :
    (c.batch grants l r).Ensures fun b => b = { schema := c.output, rows := [c.outputRow l r] } :=
  .bind fun _ _ _ h => finishRowMetered_eq_ok h

def rowEvent (l : JoinRecord) (r : Option JoinRecord) : JoinEvent :=
  .row { schema := c.output, rows := [c.outputRow l r] }

/-- The event of sending a row of this side with a partner. -/
def pairEvent (side : Side) (a b : JoinRecord) : JoinEvent :=
  rowEvent c (side.orient a b).1 (some (side.orient a b).2)

/-- The row as one that has been sent with a partner. -/
def mark (r : JoinRecord) : JoinRecord := { r with matched := true }

theorem pairEvent_mark (side : Side) (a b : JoinRecord) :
    pairEvent c side (mark a) b = pairEvent c side a b ∧
      pairEvent c side a (mark b) = pairEvent c side a b := by
  cases side <;> exact ⟨rfl, rfl⟩

theorem matchRecords_mark (side : Side) (a b : JoinRecord) :
    c.matchRecords side (mark a) b = c.matchRecords side a b ∧
      c.matchRecords side a (mark b) = c.matchRecords side a b := by
  cases side <;> exact ⟨rfl, rfl⟩

theorem emitMatch_ok {other : ℕ} {b : RowBatch}
    (h : j.emitMatch side pending other grants = .ok (b, j', pending')) :
    ∃ r, (j.rows side.other).get? other = some r ∧
      JoinEvent.row b = pairEvent j.toJoinConfig side pending.record r ∧
      j' = j.setRows side.other ((j.rows side.other).modify other mark) ∧
      pending' = { pending with record := mark pending.record } := by
  unfold emitMatch at h
  cases hr : (j.rows side.other).get? other with
  | none => simp [hr] at h
  | some r =>
    rw [hr] at h
    obtain ⟨b', hb, h⟩ := bind_eq_ok.mp h
    cases h
    exact ⟨r, rfl, by rw [batch_ok hb]; rfl, rfl, rfl⟩

@[simp] theorem setRows_rows (side : Side) (rows : SortedMap ℕ JoinRecord) :
    (j.setRows side rows).rows side = rows := by
  simp [setRows]

@[simp] theorem setRows_rows_other (side : Side) (rows : SortedMap ℕ JoinRecord) :
    (j.setRows side.other rows).rows side = j.rows side := by
  simp [setRows]

theorem setRows_setRows (side : Side) (rows rows' : SortedMap ℕ JoinRecord) :
    (j.setRows side rows).setRows side rows' = j.setRows side rows' := by
  simp [setRows]

/-- The partners of a row that come after an ordinal. -/
def later (j : BoundedJoin) (side : Side) (record : JoinRecord) (after : ℕ) : List (ℕ × JoinRecord) :=
  (j.rows side.other).after after fun r => j.matchRecords side record r

/-- What the loop leaves of a retained row. -/
def marked (j : BoundedJoin) (side : Side) (record : JoinRecord) (after o : ℕ) (r : JoinRecord) :
    JoinRecord :=
  if after < o ∧ j.matchRecords side record r = true then mark r else r

theorem setRows_self (side : Side) : j.setRows side (j.rows side) = j := by
  simp [setRows]

variable {record : JoinRecord}

theorem marked_eq_self (h : j.later side record after = []) (o : ℕ) :
    (j.rows side.other).get? o = ((j.rows side.other).get? o).map (j.marked side record after o) := by
  cases hr : (j.rows side.other).get? o with
  | none => rfl
  | some r =>
    have hn : ¬ (after < o ∧ j.matchRecords side record r = true) := fun hm => by
      have : (o, r) ∈ j.later side record after := mem_after.mpr ⟨hr, hm⟩
      simp [h] at this
    simp only [map_some, marked, if_neg hn]

theorem marked_modify (hl : j.later side record after = (id, r) :: j.later side record id) (o : ℕ) :
    ((((j.rows side.other).modify id mark).get? o).map (j.marked side record id o)) =
      ((j.rows side.other).get? o).map (j.marked side record after o) := by
  have hme : (id, r) ∈ j.later side record after := by simp [hl]
  obtain ⟨hr, hid, hm⟩ := mem_after.mp hme
  rw [get?_modify]
  obtain rfl | ho := eq_or_ne o id
  · simp only [hr, ↓reduceIte, map_some, marked, lt_irrefl, false_and, hid, hm, and_self]
  · rw [if_neg ho]
    cases hro : (j.rows side.other).get? o with
    | none => rfl
    | some r' =>
      -- a partner after the ordinal is the next one or comes after it
      have hi : (id < o ∧ j.matchRecords side record r' = true) ↔
          (after < o ∧ j.matchRecords side record r' = true) := by
        refine ⟨fun h => ⟨lt_trans hid h.1, h.2⟩, fun h => ?_⟩
        have : (o, r') ∈ j.later side record after := mem_after.mpr ⟨hro, h⟩
        rw [hl] at this
        rcases List.mem_cons.mp this with heq | hin
        · exact absurd (congrArg Prod.fst heq) ho
        · exact (mem_after.mp hin).2
      simp only [map_some, marked, hi]

theorem later_emitted (record : JoinRecord) (id : ℕ) :
    (j.setRows side.other ((j.rows side.other).modify id mark)).later side (mark record) id =
      j.later side record id := by
  have hm : (fun r => j.matchRecords side (mark record) r) = fun r => j.matchRecords side record r :=
    funext fun r => (matchRecords_mark j.toJoinConfig side record r).1
  unfold later
  rw [setRows_rows, ← hm]
  exact after_modify (j.rows side.other) id mark fun r => j.matchRecords side (mark record) r

/-- What the loop over the partners after an ordinal has sent and left. -/
structure Emitted (j : BoundedJoin) (side : Side) (after : ℕ) (pending : Pending) (sent : List JoinEvent)
    (j' : BoundedJoin) (pending' : Pending) : Prop where
  sent_eq : sent = (j.later side pending.record after).map fun e =>
    pairEvent j.toJoinConfig side pending.record e.2
  rows : ∃ rows, j' = j.setRows side.other rows ∧
    ∀ o, rows.get? o = ((j.rows side.other).get? o).map (j.marked side pending.record after o)
  pending_eq : pending' = if j.later side pending.record after = [] then pending
    else { pending with record := mark pending.record }

theorem Emitted.nil (h : j.later side pending.record after = []) :
    Emitted j side after pending [] j pending :=
  ⟨by rw [h]; rfl, ⟨_, (setRows_self _).symm, marked_eq_self h⟩, by rw [if_pos h]⟩

theorem Emitted.cons {sent : List JoinEvent}
    (hl : j.later side pending.record after = (id, r) :: j.later side pending.record id)
    (h : Emitted (j.setRows side.other ((j.rows side.other).modify id mark)) side id
      { pending with record := mark pending.record } sent j' pending') :
    Emitted j side after pending (pairEvent j.toJoinConfig side pending.record r :: sent) j' pending' := by
  obtain ⟨hs, ⟨rows, hj', hr⟩, hp⟩ := h
  rw [later_emitted pending.record id] at hs hp
  refine ⟨?_, ⟨rows, by rw [hj', setRows_setRows], fun o => ?_⟩, ?_⟩
  · rw [hs, hl, map_cons]
    congr 1
    exact map_congr_left fun e _ => (pairEvent_mark _ side pending.record e.2).1
  · rw [hr, setRows_rows, ← marked_modify hl]
    congr 1
    funext r
    exact congrArg (fun m => if id < o ∧ m = true then mark r else r)
      (matchRecords_mark j.toJoinConfig side pending.record r).1
  · rw [hp, hl]
    simp only [reduceCtorEq, ↓reduceIte]
    split_ifs <;> rfl

/-- **The loop over the partners**: the row is sent with each of them in order, and all are marked. -/
theorem emitMatches_ok {grants : ℕ → Grants} (hn : (j.later side pending.record after).length ≤ n)
    (h : (emitMatches side grants n after j pending).result = .ok (j', pending')) :
    Emitted j side after pending (emitMatches side grants n after j pending).sent j' pending' := by
  induction n generalizing j pending after with
  | zero =>
    cases Except.ok.inj h
    exact .nil (List.length_eq_zero_iff.mp (Nat.le_zero.mp hn))
  | succ n ih =>
    unfold emitMatches at h ⊢
    cases hne : j.nextMatch side pending after with
    | none =>
      rw [hne] at h
      cases Except.ok.inj h
      exact .nil (after_of_find?_none (Option.map_eq_none_iff.mp hne))
    | some id =>
      rw [hne] at h
      obtain ⟨⟨id, r⟩, hf, rfl⟩ := Option.map_eq_some_iff.mp hne
      have hl : j.later side pending.record after = (id, r) :: j.later side pending.record id :=
        after_of_find? hf
      obtain ⟨⟨b, j₁, pending₁⟩, he, hres⟩ := bind_result_eq_ok.mp h
      obtain ⟨r', hr', hb, rfl, rfl⟩ := emitMatch_ok he
      have hr : (j.rows side.other).get? id = some r :=
        (mem_after.mp (show (id, r) ∈ j.later side pending.record after by simp [hl])).1
      obtain rfl : r' = r := some.inj (hr'.symm.trans hr)
      obtain ⟨_, -, hlo⟩ := bind_result_eq_ok.mp hres
      have hc := hn
      rw [hl, length_cons, Nat.succ_le_succ_iff, ← later_emitted] at hc
      have hre := ih hc hlo
      dsimp only
      rw [bind_ok (show (lift _ : JoinTaskM _).result = _ from he)]
      exact hb ▸ Emitted.cons hl hre

/-! ### A row -/

/-- The operator after a row with that record was sent and retained. -/
def Pushed (j : BoundedJoin) (side : Side) (pending : Pending) (sent : List JoinEvent)
    (j' : BoundedJoin) : Prop :=
  ∃ j₁ pending₁, Emitted j side 0 pending sent j₁ pending₁ ∧ j' = j₁.insert side pending₁

theorem later_length (record : JoinRecord) (after : ℕ) :
    (j.later side record after).length ≤ (j.rows side.other).size := length_filter_le _ _

/-- **A row of an input.** -/
theorem pushRow_ok {credits : Credits} {r : Option BoundedJoin}
    (h : (j.pushRow side row credits).result = .ok r) :
    (r = none ∧ isFuture j.toJoinConfig side row credits.now = true ∧
        (j.pushRow side row credits).sent = [.futureDropped]) ∨
      isFuture j.toJoinConfig side row credits.now = false ∧ ∃ time expires sent j',
        j.Admits side row time expires ∧
        j.checkFanout side (j.pendingOf side row time expires) = .ok () ∧
        Pushed j side (j.pendingOf side row time expires) sent j' ∧ r = some j' ∧
        (j.pushRow side row credits).sent =
          .accepted side (j.recordOf side row time expires (j.sequence side + 1)) :: sent := by
  unfold pushRow at h ⊢
  obtain ⟨o, hp, h⟩ := bind_result_eq_ok.mp h
  rw [bind_ok hp]
  obtain ⟨hf, rfl⟩ | ⟨hf, time, expires, ha, rfl⟩ := prepare_ok hp
  · obtain ⟨_, -, h⟩ := bind_result_eq_ok.mp h
    exact .inl ⟨(Except.ok.inj h).symm, hf, rfl⟩
  · obtain ⟨_, hfa, h⟩ := bind_result_eq_ok.mp h
    obtain ⟨_, -, h⟩ := bind_result_eq_ok.mp h
    obtain ⟨⟨j₁, pending₁⟩, hl, h⟩ := bind_result_eq_ok.mp h
    have he := emitMatches_ok (later_length _ _) hl
    refine .inr ⟨hf, time, expires, _, _, ha, hfa, ⟨j₁, pending₁, he, rfl⟩, (Except.ok.inj h).symm, ?_⟩
    dsimp only
    rw [bind_ok hfa]
    rw [bind_ok (show (emit _ : JoinTaskM Unit).result = .ok () from rfl), bind_ok hl]
    simp [emit, pure, pendingOf]

/-! ### Closing -/

/-- A row that has to be sent alone when it is closed. -/
def alone (j : BoundedJoin) (side : Side) (r : JoinRecord) : Bool :=
  side = .left ∧ j.spec.mode = .left ∧ r.matched = false

def keysWithout (j : BoundedJoin) (r : JoinRecord) : SortedMap Bytes ℕ :=
  let keys := j.keys.modify r.key (· - 1)
  if keys.get? r.key = some 0 then keys.erase r.key else keys

def without (j : BoundedJoin) (side : Side) (id : ℕ) (r : JoinRecord) : BoundedJoin :=
  { j.setRows side ((j.rows side).erase id) with keys := j.keysWithout r }

theorem close_ok {output : Option RowBatch} (h : j.close side id grants = .ok (output, j')) :
    ∃ r, (j.rows side).get? id = some r ∧ j' = j.without side id r ∧
      output = if j.alone side r then some { schema := j.output, rows := [j.outputRow r none] } else
        none := by
  unfold close at h
  cases hr : (j.rows side).get? id with
  | none => simp [hr] at h
  | some r =>
    rw [hr] at h
    obtain ⟨o, ho, h⟩ := bind_eq_ok.mp h
    cases h
    refine ⟨r, rfl, rfl, ?_⟩
    unfold closeOutput at ho
    by_cases ha : side = .left ∧ j.spec.mode = .left ∧ r.matched = false
    · rw [if_pos ha] at ho
      obtain ⟨b, hb, rfl⟩ := map_eq_ok.mp ho
      rw [alone, decide_eq_true ha, if_pos rfl, ← batch_ok hb]
    · rw [if_neg ha] at ho
      rw [alone, decide_eq_false ha, if_neg Bool.false_ne_true]
      exact (Except.ok.inj ho).symm

theorem expired_eq_some (h : j.expired = some (side, id)) :
    ∃ wm r, j.watermarks side.other = some wm ∧ (j.rows side).get? id = some r ∧ r.expires ≤ wm := by
  have hon : j.expiredOn side = some id := by
    rcases Option.or_eq_some_iff.mp h with h | ⟨-, h⟩ <;>
      · obtain ⟨i, hi, heq⟩ := Option.map_eq_some_iff.mp h
        cases heq
        exact hi
  obtain ⟨wm, hwm, hf⟩ := Option.bind_eq_some_iff.mp hon
  obtain ⟨⟨i, r⟩, he, rfl⟩ := Option.map_eq_some_iff.mp hf
  exact ⟨wm, r, hwm, mem_entries_iff.mp (mem_of_find?_eq_some he), by simpa using find?_some he⟩

theorem expired_eq_none :
    j.expired = none ↔ ∀ side wm id r, j.watermarks side.other = some wm →
      (j.rows side).get? id = some r → wm < r.expires := by
  have hon : ∀ side, j.expiredOn side = none ↔
      ∀ wm id r, j.watermarks side.other = some wm → (j.rows side).get? id = some r → wm < r.expires := by
    intro side
    unfold expiredOn
    cases hwm : j.watermarks side.other with
    | none => simp
    | some wm =>
      simp only [bind_some, map_eq_none_iff, find?_eq_none, decide_eq_true_eq, not_le]
      exact ⟨fun h wm' id r hw' hr => some.inj hw' ▸ h (id, r) (mem_entries_iff.mpr hr),
        fun h e he => h wm e.1 e.2 rfl (mem_entries_iff.mp he)⟩
  unfold expired
  rw [or_eq_none_iff, map_eq_none_iff, map_eq_none_iff, hon, hon]
  exact ⟨fun h side => match side with | .left => h.1 | .right => h.2, fun h => ⟨h .left, h .right⟩⟩

theorem without_retained (h : (j.rows side).get? id = some r) :
    (j.without side id r).retained + 1 = j.retained := by
  have hs := size_erase h
  cases side <;> simp [retained, without, setRows, Function.update] <;> omega

/-- **A drain ends with nothing expired.** -/
theorem closeExpired_expired {grants : Side → ℕ → Grants} (hn : j.retained ≤ n)
    (h : (closeExpired grants n j).result = .ok j') : j'.expired = none := by
  induction n generalizing j with
  | zero =>
    obtain rfl : j = j' := Except.ok.inj h
    refine expired_eq_none.mpr fun side wm id r _ hr => ?_
    have := without_retained hr
    omega
  | succ n ih =>
    unfold closeExpired at h
    cases he : j.expired with
    | none =>
      rw [he] at h
      obtain rfl : j = j' := Except.ok.inj h
      exact he
    | some e =>
      rw [he] at h
      obtain ⟨⟨output, j₁⟩, hc, h⟩ := bind_result_eq_ok.mp h
      obtain ⟨r, hr, rfl, -⟩ := close_ok hc
      have := without_retained hr
      cases output with
      | none => exact ih (by omega) h
      | some b =>
        exact ih (by omega) h

/-- **Induction over a drain.** `I` holds of the log and the operator, `P` of the log alone. -/
theorem closeExpired_ensures {P : List JoinEvent → Prop} {I : List JoinEvent → BoundedJoin → Prop}
    {grants : Side → ℕ → Grants} (hP : ∀ log j, I log j → P log)
    (hc : ∀ log j side id wm r, I log j → j.watermarks side.other = some wm →
      (j.rows side).get? id = some r → r.expires ≤ wm →
        I (log ++ if j.alone side r then [rowEvent j.toJoinConfig r none] else []) (j.without side id r))
    {log : List JoinEvent} (hI : I log j) : Emits.Ensures log (closeExpired grants n j) P I := by
  induction n generalizing log j with
  | zero => exact .pure (hP _ _ hI) hI
  | succ n ih =>
    unfold closeExpired
    cases he : j.expired with
    | none => exact .pure (hP _ _ hI) hI
    | some e =>
      obtain ⟨side, id⟩ := e
      obtain ⟨wm, r, hwm, hr, hle⟩ := expired_eq_some he
      have hI' := hc log j side id wm r hI hwm hr hle
      refine .lift_bind (hP _ _ hI) fun o ho => ?_
      obtain ⟨output, j₁⟩ := o
      obtain ⟨r', hr', rfl, rfl⟩ := close_ok ho
      obtain rfl : r' = r := some.inj (hr'.symm.trans hr)
      cases ha : j.alone side r' with
      | true =>
        rw [ha] at hI'
        exact .emit_bind (ih hI')
      | false =>
        rw [ha] at hI'
        exact ih (by simpa using hI')

end BoundedJoin

end Sparrow.Runtime
