import Mathlib.Algebra.Order.BigOperators.Group.List
import Sparrow.Checkpoint.JoinFrame
import Sparrow.Runtime.JoinKeys
import Sparrow.Runtime.JoinWatermarks

/-!
# A restored join goes on as if nothing had happened

At every barrier the state of a durable join can be written, what is written is read
back, and restoring it into a fresh operator gives the operator that was frozen: the same
rows under the same numbers, the same marks, key counts and watermarks. A task that
starts from it behaves as the one that was interrupted.
-/

namespace Sparrow.Runtime

open Library Model Plan Function BoundedJoin SortedMap JoinTask List Scalar

namespace BoundedJoin

variable {j : BoundedJoin} {side : Side}

def reinsert (side : Side) (j : BoundedJoin) (e : ℕ × JoinRecord) : BoundedJoin :=
  j.insert side { record := e.2, newKey := (j.keys.get? e.2.key).isNone }

def frozenRow (r : JoinRecord) : JoinRowFreeze := { ordinal := r.ordinal, matched := r.matched, row := r.row }

theorem fitsColumn_of_checkRow {schema : Schema} {row : Row} (h : checkRow schema row = .ok ()) :
    row.values.length = schema.fields.length ∧
      (row.values.zip schema.fields).all (fun p => fitsColumn p.1 p.2) = true := by
  obtain ⟨hl, ht⟩ := checkRow_eq_ok.mp h
  refine ⟨hl, List.all_eq_true.mpr fun p hp => ?_⟩
  obtain ⟨hnu, hty⟩ := ht p hp
  unfold fitsColumn
  split_ifs with hn
  · exact hnu hn
  · exact hty (by simpa using hn)

theorem countOn_eq_zero {rows : SortedMap ℕ JoinRecord} {key : Bytes} (h : key ∉ rows.entries.map (·.2.key)) :
    countOn rows key = 0 := by
  have hz : rows.entries.map (fun e => if e.2.key = key then 1 else 0) = rows.entries.map fun _ => 0 :=
    map_congr_left fun e he => if_neg fun hk => h (List.mem_map.mpr ⟨e, he, hk⟩)
  rw [countOn, hz]
  simp

theorem Counted.size_le (h : j.Counted) : j.keys.size ≤ j.retained := by
  have hn : (j.keys.entries.map (·.1)).Nodup := List.pairwise_map.mpr (j.keys.sorted.imp fun h => h.ne)
  have hs : j.keys.entries.map (·.1) ⊆ (j.rows .left).entries.map (·.2.key) ++
      (j.rows .right).entries.map (·.2.key) := by
    intro key hk
    obtain ⟨⟨key, n⟩, he, rfl⟩ := List.mem_map.mp hk
    by_contra hno
    obtain ⟨hl, hr⟩ := not_or.mp (mt List.mem_append.mpr hno)
    have hg := h key
    rw [mem_entries_iff.mp he, keyCount, countOn_eq_zero hl, countOn_eq_zero hr] at hg
    cases hg
  simpa [size, retained] using (subperm_of_subset hn hs).length_le

theorem insert_sequence (n : ℕ) (pending : Pending) :
    ({ j with sequence := update j.sequence side n } : BoundedJoin).insert side pending = j.insert side pending := by
  simp [insert, setRows]

variable {grants : ℕ → Grants}

/-- **A retained row passes every check of the restore.** -/
theorem restoreRow_ok {id : ℕ} {r : JoinRecord}
    (hg : ∀ o site kind n, grants o site kind n = .ok ()) (hh : r.Held j.toJoinConfig side id) (hpo : 1 ≤ id)
    (hid : (id : ℤ) ≤ i64Max) (hw : j.watermarks side = none)
    (hro : (j.rows side).size < j.spec.maxRowsPerSide) (ht : j.retained < j.maxKeys) (hke : j.Counted) :
    restoreRow side grants j (frozenRow r) = .ok (j.reinsert side (id, r)) := by
  obtain ⟨hl, hf⟩ := fitsColumn_of_checkRow hh.storable.1
  have ho : r.ordinal = id := by rw [hh.record]; rfl
  have hs : r.ordinal - 1 + 1 = id := by omega
  have ha : ({ j with sequence := update j.sequence side (r.ordinal - 1) } : BoundedJoin).Admits side r.row
      r.time r.expires :=
    { width := hl, time_eq := hh.time_eq, nonneg := hh.nonneg, room := hro, closes := hh.closes
      current := fun {wm} hwm => by
        rw [hw] at hwm
        cases hwm
      durable := fun _ => ht
      ordinal := by simpa [hs] using hid
      keys := fun _ => lt_of_le_of_lt hke.size_le ht }
  have hn : r.time ≤ satAddI i64Max defaultMaxFutureSkewMicros := (fitsI64_iff.mp ha.fits).2
  refine guard_eq_ok.mpr ⟨(not_or.mpr ⟨not_not.mpr hl, not_not.mpr hf⟩), ?_⟩
  refine bind_eq_ok.mpr ⟨_, ha.prepare hn (hg _), ?_⟩
  have hr : { j.recordOf side r.row r.time r.expires
      ((update j.sequence side (r.ordinal - 1)) side + 1) with matched := r.matched } = r := by
    rw [update_self, hs]
    exact hh.record.symm
  have hk : encodeKeyValues (j.keyValues side r.row) = r.key := by rw [hh.record]; rfl
  have hma : r.matchable = (j.keyValues side r.row).all fun v => !v.isNull && !v.isNaN := by
    rw [hh.record]
    rfl
  refine guard_eq_ok.mpr ⟨fun hm => hm.2 (hma.symm.trans (hh.matchable hm.1)), ?_⟩
  have hp : ({ (pendingOf { j with sequence := update j.sequence side (r.ordinal - 1) } side r.row r.time
      r.expires) with record := { j.recordOf side r.row r.time r.expires
        ((update j.sequence side (r.ordinal - 1)) side + 1) with matched := r.matched } } : Pending) =
      { record := r, newKey := (j.keys.get? r.key).isNone } := by
    rw [hr, pendingOf, hk]
  exact congrArg Except.ok ((congrArg _ hp).trans (insert_sequence _ _))

theorem restoreRows_ok (hg : ∀ o site kind n, grants o site kind n = .ok ())
    {l : List (ℕ × JoinRecord)} (hl : ∀ e ∈ l, e.2.Held j.toJoinConfig side e.1 ∧ 1 ≤ e.1 ∧ (e.1 : ℤ) ≤ i64Max)
    (hne : l.Pairwise fun a b => a.1 ≠ b.1) (hf : ∀ e ∈ l, (j.rows side).get? e.1 = none)
    (hw : j.watermarks side = none) (hro : (j.rows side).size + l.length ≤ j.spec.maxRowsPerSide)
    (ht : j.retained + l.length ≤ j.maxKeys) (hk : j.Counted) :
    (l.map fun e => frozenRow e.2).foldlM (restoreRow side grants) j = .ok (l.foldl (reinsert side) j) ∧
      (l.foldl (reinsert side) j).Counted ∧
      (l.foldl (reinsert side) j).rows = update j.rows side (l.foldl (fun m e => m.insert e.1 e.2) (j.rows side)) ∧
      (l.foldl (reinsert side) j).toJoinConfig = j.toJoinConfig ∧
        (l.foldl (reinsert side) j).watermarks = j.watermarks := by
  induction l generalizing j with
  | nil => exact ⟨rfl, hk, by simp, rfl, rfl⟩
  | cons e l ih =>
    obtain ⟨⟨hh, hp, hid⟩, hl⟩ := List.forall_mem_cons.mp hl
    obtain ⟨hhe, hne⟩ := List.pairwise_cons.mp hne
    obtain ⟨hn, hf⟩ := List.forall_mem_cons.mp hf
    have hor : e.2.ordinal = e.1 := by rw [hh.record]; rfl
    rw [length_cons] at hro ht
    have hrow := restoreRow_ok hg hh hp hid hw (by omega) (by omega) hk
    have ho : (j.reinsert side e).rows side = (j.rows side).insert e.1 e.2 := by
      simp [reinsert, insert, setRows, hor]
    have hot : (j.reinsert side e).rows side.other = j.rows side.other := by
      simp [reinsert, insert, setRows]
    have hs := size_insert_of_none hn e.2
    have hco : (j.reinsert side e).Counted := hk.insert rfl (hor ▸ hn)
    have hr' : ((j.reinsert side e).rows side).size + l.length ≤ j.spec.maxRowsPerSide := by
      rw [ho, hs]
      omega
    have ht' : (j.reinsert side e).retained + l.length ≤ j.maxKeys := by
      rw [retained_eq side] at ht ⊢
      rw [ho, hot, hs]
      omega
    obtain ⟨hr, hc', hrows, hc, hwa⟩ := ih (j := j.reinsert side e) hl hne
      (fun e' he' => by rw [ho, get?_insert_of_ne _ _ (hhe e' he').symm]; exact hf e' he')
      hw hr' ht' hco
    refine ⟨?_, hc', ?_, hc, hwa⟩
    · rw [map_cons, foldlM_cons, hrow]
      exact hr
    · have hu : (j.reinsert side e).rows = update j.rows side ((j.rows side).insert e.1 e.2) := by
        rw [← ho]
        funext side'
        obtain rfl | rfl := side.eq_or_eq_other side'
        · simp
        · simp [hot]
      rw [foldl_cons, hrows, ho, hu, update_idem, foldl_cons]

theorem Counted.keys_eq {j' : BoundedJoin} (h : j.Counted) (h' : j'.Counted)
    (hr : j.rows = j'.rows) : j.keys = j'.keys := by
  refine ext_get? fun key => ?_
  rw [h, h', keyCount, keyCount, hr]

theorem advanceTo_ok (side : Side) {p : Progress} (hp : p.Sound) (h : j.watermarks side = none) :
    j.advanceTo side p = .ok { j with watermarks := update j.watermarks side (inputWatermark p) } := by
  unfold advanceTo
  cases hwm : inputWatermark p with
  | none =>
    have hs : update j.watermarks side none = j.watermarks := by rw [← h, update_eq_self]
    rw [hs]
  | some wm =>
    have hn : ¬ wm < 0 := not_lt.mpr (hp.inputWatermark hwm).1
    dsimp only [advance]
    rw [if_neg hn, h]
    rfl

end BoundedJoin

variable {c : JoinConfig} {s : JoinState}

/-- **Restoring a settled state gives the operator that was frozen.** -/
theorem restoreState_settled {j : BoundedJoin} {grants : Side → ℕ → Grants} {freeze : AnalysisFreeze}
    (hg : ∀ side o site kind n, grants side o site kind n = .ok ()) (h : s.Settled c) (hd : c.durable = true)
    (hc : j.toJoinConfig = c) (hro : ∀ side, j.rows side = .empty) (hk : j.keys = .empty)
    (hs : ∀ side, j.sequence side = 0) (hw : ∀ side, j.watermarks side = none)
    (hf : freeze.data = joinData s) :
    j.restoreState grants freeze = .ok (s.op, s.states, s.emitted) := by
  have hco : j.Counted := (BoundedJoin.Kept.init hro hk hs).keys
  have hh : ∀ side, ∀ e ∈ (s.op.rows side).entries, e.2.Held c side e.1 ∧ 1 ≤ e.1 ∧ (e.1 : ℤ) ≤ i64Max := by
    intro side e he
    have hr := mem_entries_iff.mp he
    obtain ⟨hp, hle⟩ := h.kept.numbered side e.1 e.2 hr
    have hma := h.kept.sequence side
    exact ⟨h.config ▸ h.kept.held side e.1 e.2 hr, hp, by omega⟩
  have hne : ∀ side, (s.op.rows side).entries.Pairwise fun a b => a.1 ≠ b.1 := fun side =>
    (s.op.rows side).sorted.imp fun h => h.ne
  have hroo : ∀ side, (s.op.rows side).size ≤ c.spec.maxRowsPerSide := fun side => h.config ▸ h.kept.room side
  have ht : (s.op.rows .left).size + (s.op.rows .right).size ≤ c.maxKeys :=
    h.config ▸ h.kept.total (by rw [h.config]; exact hd)
  have hl : ∀ side, (s.op.rows side).entries.length = (s.op.rows side).size := fun _ => rfl
  -- the left rows, into the fresh operator
  have hr₀ : (j.rows .left).size + (s.op.rows .left).entries.length ≤ j.spec.maxRowsPerSide := by
    rw [hro, hc, hl, size_empty, Nat.zero_add]
    exact hroo .left
  have ht₀ : j.retained + (s.op.rows .left).entries.length ≤ j.maxKeys := by
    rw [retained, hro, hro, hc, hl, size_empty]
    omega
  obtain ⟨hlef, hco₁, hro₁, hc₁, hw₁⟩ := restoreRows_ok (j := j)
    (hg .left) (hc ▸ hh .left) (hne .left) (fun e _ => by rw [hro]; rfl) (hw .left) hr₀ ht₀
    hco
  rw [hro, foldl_insert_entries] at hro₁
  generalize (s.op.rows .left).entries.foldl (reinsert .left) j = j₁ at *
  -- the right rows, behind them
  have hl₁ : j₁.rows .left = s.op.rows .left := by rw [hro₁]; rfl
  have hr₁ : j₁.rows .right = .empty := by rw [hro₁]; exact hro .right
  have hroo₁ : (j₁.rows .right).size + (s.op.rows .right).entries.length ≤ j₁.spec.maxRowsPerSide := by
    rw [hr₁, hc₁, hc, hl, size_empty, Nat.zero_add]
    exact hroo .right
  have ht₁ : j₁.retained + (s.op.rows .right).entries.length ≤ j₁.maxKeys := by
    rw [retained, hl₁, hr₁, hc₁, hc, hl, size_empty]
    omega
  obtain ⟨hri, hco₂, hr₂, hc₂, hw₂⟩ := restoreRows_ok (j := j₁)
    (hg .right) (hc₁.trans hc ▸ hh .right) (hne .right) (fun e _ => by rw [hr₁]; rfl)
    (hw₁ ▸ hw .right) hroo₁ ht₁ hco₁
  rw [hr₁, foldl_insert_entries] at hr₂
  generalize (s.op.rows .right).entries.foldl (reinsert .right) j₁ = j₂ at *
  have hr₂' : j₂.rows = s.op.rows := by
    rw [hr₂]
    funext side
    cases side
    · exact hl₁
    · rfl
  have hk₂ : j₂.keys = s.op.keys := hco₂.keys_eq h.kept.keys hr₂'
  have hw₂' : ∀ side, j₂.watermarks side = none := fun side => by rw [hw₂, hw₁, hw]
  -- the watermarks, and the operator is the one that was frozen
  have hop : (⟨j₂.toJoinConfig, j₂.rows, j₂.keys, s.op.sequence,
      update (update j₂.watermarks .left (inputWatermark (s.states .left))) .right
        (inputWatermark (s.states .right))⟩ : BoundedJoin) = s.op := by
    have hm : update (update j₂.watermarks .left (inputWatermark (s.states .left))) .right
        (inputWatermark (s.states .right)) = s.op.watermarks := by
      funext side
      cases side
      · exact (h.watermarks .left).symm
      · exact (h.watermarks .right).symm
    rw [hm, hr₂', hk₂, hc₂, hc₁, hc, ← h.config]
  have ha₁ := advanceTo_ok .left (j := { j₂ with sequence := s.op.sequence }) (h.sound .left)
    (hw₂' .left)
  have ha₂ := advanceTo_ok .right
    (j := { j₂ with
      sequence := s.op.sequence
      watermarks := update j₂.watermarks .left (inputWatermark (s.states .left)) })
    (h.sound .right) (hw₂' .right)
  have hfr : ¬ (¬ j.durable = true ∨ j.retained ≠ 0) := by
    rw [hc, retained, hro, hro]
    simp [hd]
  have hcu : ¬ (s.op.expired.isSome = true ∨ s.emitted.watermark ≠ s.op.progress) := by
    rw [h.drained, h.emitted_eq]
    simp
  refine guard_eq_ok.mpr ⟨hfr, ?_⟩
  rw [hf]
  refine bind_eq_ok.mpr ⟨j₁, hlef, bind_eq_ok.mpr ⟨j₂, hri, bind_eq_ok.mpr ⟨_, ha₁,
    bind_eq_ok.mpr ⟨s.op, hop ▸ ha₂, guard_eq_ok.mpr ⟨hcu, rfl⟩⟩⟩⟩⟩

/-! ### What a barrier finds can be written -/

/-- What the plan promises of a join. -/
structure JoinConfig.Planned (c : JoinConfig) : Prop where
  pos : ∀ side, 0 < (c.schemas side).fields.length
  width : ∀ side, (c.schemas side).fields.length ≤ 128
  rows : c.spec.maxRowsPerSide ≤ 4096

theorem planned_new {spec : StreamJoinSpec} {left right : Schema} {budgetKeys maxKeys : ℕ} {op : BoundedJoin}
    (h : new spec left right budgetKeys maxKeys = .ok op) : op.Planned := by
  have hke := scalarKeys_new h
  obtain ⟨output, hp, h⟩ := bind_eq_ok.mp h
  cases h
  obtain ⟨hl, -⟩ := joinOutput_ok hp
  simp only [StreamJoinSpec.limitsOk, decide_eq_true_eq] at hl
  obtain ⟨-, ⟨ho, -⟩, hs, hfi, -, -, ⟨-, hr⟩, -⟩ := hl
  refine ⟨fun side => ?_, fun side => ?_, hr⟩
  · -- there is a key column
    cases side with
    | left =>
      obtain ⟨k, hk⟩ := exists_mem_of_length_pos ho
      obtain ⟨f, hf, -⟩ := hke .left _ (mem_map_of_mem hk)
      exact Nat.zero_lt_of_lt (List.getElem?_eq_some_iff.mp hf).1
    | right =>
      obtain ⟨k, hk⟩ := exists_mem_of_length_pos (hs ▸ ho)
      obtain ⟨f, hf, -⟩ := hke .right _ (mem_map_of_mem hk)
      exact Nat.zero_lt_of_lt (List.getElem?_eq_some_iff.mp hf).1
  · cases side <;> dsimp only <;> omega

theorem JoinState.Settled.emitted_sound (h : s.Settled c) : s.emitted.Sound := by
  have hb : ∀ p, s.op.progress = some p → 0 ≤ p ∧ p ≤ i64Max := by
    intro p hp
    have hf := floor_iff.mpr ⟨p, hp, le_rfl⟩
    have hi : ∀ side wm, s.op.watermarks side = some wm → 0 ≤ wm ∧ wm ≤ i64Max := fun side wm hwm => by
      rw [h.watermarks] at hwm
      exact (h.sound side).inputWatermark hwm
    have hz : s.op.Floor 0 := by
      refine ⟨fun side => ?_, fun _ id r hr _ => (h.kept.held .left id r hr).nonneg⟩
      obtain ⟨wm, hwm, -⟩ := hf.inputs side
      exact ⟨wm, hwm, (hi side wm hwm).1⟩
    obtain ⟨p', hp', hle⟩ := floor_iff.mp hz
    obtain ⟨wm, hwm, hpw⟩ := hf.inputs .left
    exact ⟨Option.some.inj (hp'.symm.trans hp) ▸ hle, hpw.trans (hi .left wm hwm).2⟩
  rw [h.emitted_eq]
  refine ⟨refuseIf_eq_ok.mpr ?_, fun wm hwm => (hb wm hwm).2⟩
  cases hp : s.op.progress with
  | none => simp
  | some p => simpa using (hb p hp).1

theorem encodable_of_rowCredit {values : List Scalar} (hp : ∀ v ∈ values, v.isDynamic = false)
    (hc : rowCredit values ≤ maxSnapshotBytes) : ∀ v ∈ values, v.Encodable := by
  intro v hv
  have hsu : v.residentBytes ≤ (values.map residentBytes).sum := le_sum_of_mem (mem_map_of_mem hv)
  unfold rowCredit satAdd satMul at hc
  have hs : v.residentBytes ≤ maxSnapshotBytes := by
    unfold maxSnapshotBytes usizeMax at *
    omega
  unfold residentBytes satAdd maxSnapshotBytes usizeMax at hs
  have hp := hp v hv
  cases v with
  | utf8 s =>
    simp only [residentHeapBytes, satAdd, usizeMax] at hs
    simp only [Scalar.Encodable]
    omega
  | bytes b =>
    simp only [residentHeapBytes, satAdd, usizeMax] at hs
    simp only [Scalar.Encodable]
    omega
  | dynamic d => cases hp
  | _ => trivial

theorem JoinState.Settled.encodable (h : s.Settled c) (hp : c.Planned)
    (hd : c.durable = true) (hca : satAdd s.op.state.2 1024 ≤ maxSnapshotBytes) : s.Encodable := by
  have hen : ∀ side, ∀ e ∈ (s.op.rows side).entries, e.2.Held c side e.1 ∧ e.2.ordinal = e.1 ∧ 1 ≤ e.1 ∧
      e.1 ≤ s.op.sequence side := fun side e he => by
    have hr := mem_entries_iff.mp he
    have hh := h.config ▸ h.kept.held side e.1 e.2 hr
    exact ⟨hh, by rw [hh.record]; rfl, h.kept.numbered side e.1 e.2 hr⟩
  refine ⟨fun side r hr => ?_, fun side => ?_, fun side => ?_, fun side => ?_, h.sound, h.emitted_sound, ?_⟩
  · obtain ⟨e, he, rfl⟩ := List.mem_map.mp hr
    obtain ⟨hh, ho, hpo, hle⟩ := hen side e he
    have hl := (fitsColumn_of_checkRow hh.storable.1).1
    have hc : rowCredit e.2.row.values ≤ s.op.state.2 := by
      have hro : rowCredit e.2.row.values = s.op.rowCharge e.2.row := by
        rw [JoinConfig.rowCharge, h.config, if_pos hd]
      have hs : rowCredit e.2.row.values ≤ ((s.op.rows side).entries.map fun e => s.op.rowCharge e.2.row).sum :=
        le_sum_of_mem (List.mem_map.mpr ⟨e, he, hro.symm⟩)
      unfold state
      cases side <;> dsimp only <;> omega
    refine ⟨⟨ho ▸ hle, hl ▸ hp.pos side, hl ▸ hp.width side, ?_⟩, ho ▸ hpo⟩
    refine encodable_of_rowCredit hh.storable.2 (hc.trans ?_)
    unfold satAdd maxSnapshotBytes usizeMax at *
    omega
  · refine List.pairwise_map.mpr ((s.op.rows side).sorted.imp_of_mem fun {a b} ha hb hab => ?_)
    rw [(hen side a ha).2.1, (hen side b hb).2.1]
    exact hab
  · exact (h.kept.room side).trans (h.config ▸ hp.rows)
  · have := h.kept.sequence side
    unfold i64Max at this
    omega
  · rw [h.emitted_eq]
    exact ⟨rfl, rfl⟩

/-! ### Restoring at a barrier -/

/-- **A restored join goes on as if nothing had happened.** After any run of a durable join, at any
barrier (between rounds, and within the bound on snapshots): the state is written, what is written
is read back to its last byte, restoring it into a fresh operator gives the operator and the
progress that were frozen, and a task that starts from them at that point of the graph's decisions
sends and becomes in every later run what the uninterrupted one does. -/
theorem restore_resumes {spec : StreamJoinSpec} {left right : Schema} {budgetKeys maxKeys limit sequence : ℕ}
    {op : BoundedJoin} {micros : ℤ} {t₀ t : JoinTask} {ctx : JobCtx} {deliveries : List Delivery}
    {grants : Side → ℕ → Grants} (hnew : new spec left right budgetKeys maxKeys = .ok op)
    (hstart : start (.fresh op.setDurable) sequence micros = .ok t₀)
    (hdurable : ∀ d ∈ deliveries, d.Durable op.toJoinConfig) (hrun : (t₀.run ctx deliveries).result = .ok t)
    (hbarrier : t.begun = false) (hcapacity : satAdd t.op.state.2 1024 ≤ maxSnapshotBytes)
    (hoperator : ctx.operator < 2 ^ 32) (hlimit : min maxKeys budgetKeys ≤ limit)
    (hgrants : ∀ side o site kind n, grants side o site kind n = .ok ()) :
    ∃ bytes freeze t', t.op.encodeState ctx.operator t.states t.emitted limit = .ok bytes ∧
      AnalysisFreeze.decode limit bytes = .ok (freeze, []) ∧ freeze.operator = ctx.operator ∧
      op.setDurable.restoreState grants freeze = .ok (t.op, t.states, t.emitted) ∧
      start { op := t.op, states := t.states, emitted := t.emitted } (t.sequence - 1) t.previousTime = .ok t' ∧
      ∀ later, t'.run ctx later = ({ t with barriers := fun _ => none } : JoinTask).run ctx later := by
  obtain ⟨hs, hc⟩ := run_settled hnew hstart hdurable hrun
  have hpl : op.setDurable.toJoinConfig.Planned :=
    ⟨(planned_new hnew).pos, (planned_new hnew).width, (planned_new hnew).rows⟩
  have hen := hs.encodable hpl rfl hcapacity
  obtain ⟨hro, hk, hse, hw, hm⟩ : (∀ side, op.rows side = .empty) ∧ op.keys = .empty ∧
      (∀ side, op.sequence side = 0) ∧ (∀ side, op.watermarks side = none) ∧ op.maxKeys = min maxKeys budgetKeys := by
    obtain ⟨output, -, hnew⟩ := bind_eq_ok.mp hnew
    cases hnew
    exact ⟨fun _ => rfl, rfl, fun _ => rfl, fun _ => rfl, rfl⟩
  have hre : t.op.retained ≤ limit := by
    have ht := hs.kept.total (by rw [hs.config]; rfl)
    rw [hs.config] at ht
    exact (ht.trans_eq hm).trans hlimit
  have hp : ∀ side, ∀ e ∈ (t.op.rows side).entries, ∀ v ∈ e.2.row.values, v.isDynamic = false := fun side e he =>
    (hs.kept.held side e.1 e.2 (mem_entries_iff.mp he)).storable.2
  have hr := reads_joinBytes hen hoperator hre []
  rw [append_nil] at hr
  refine ⟨_, _, startOf t.toJoinState (t.sequence - 1) t.previousTime,
    encodeState_ok (by rw [hs.config]; rfl) hre hp, hr, rfl,
    restoreState_settled hgrants hs rfl rfl hro hk hse hw rfl, ?_, fun later => ?_⟩
  · have hf : ¬ usizeMax < t.sequence - 1 + 1 := by
      have := hc.sequence
      omega
    exact guard_eq_ok.mpr ⟨hf, rfl⟩
  · -- the task is between rounds, so the state is all there is
    have heq := hc.eq_start hbarrier
    have hsa : ({ t with barriers := fun _ => none } : JoinTask) =
        startOf t.toJoinState (t.sequence - 1) t.previousTime := by
      rw [heq]
      rfl
    rw [hsa]

def sampleRound : List Delivery :=
  samplePort .left 1 5 [sampleJoinRow (.int64 1) 10, sampleJoinRow (.int64 2) 30] 40 0 ++
    samplePort .right 1 5 [sampleJoinRow (.int64 1) 12] 20 0

theorem samplePort_durable {side : Side} {sequence flags : ℕ} {micros wm : ℤ} {rows : List Row}
    (hr : ∀ row ∈ rows, sampleJoin.toJoinConfig.Storable side row) (hwm : wm ≤ i64Max) :
    ∀ d ∈ samplePort side sequence micros rows wm flags, d.Durable sampleJoin.toJoinConfig := by
  intro d hd
  simp only [samplePort, map_cons, map_nil, mem_cons, not_mem_nil, or_false] at hd
  rcases hd with rfl | rfl | rfl | rfl <;>
    · rintro env ⟨⟩
      refine ⟨?_, ?_⟩
      · rintro batch ⟨⟩
        try exact hr
      · rintro wm flags ⟨⟩
        try exact hwm

theorem sampleJoinRow_storable (side : Side) (k ts : Int64) :
    sampleJoin.toJoinConfig.Storable side (sampleJoinRow (.int64 k) ts) := by
  refine ⟨by cases side <;> rfl, fun v hv => ?_⟩
  simp only [sampleJoinRow, mem_cons, not_mem_nil, or_false] at hv
  rcases hv with rfl | rfl <;> rfl

def sampleTask : JoinTask :=
  Result.value ((startOf (.fresh sampleJoin.setDurable) 0 0).run
    sampleJob sampleRound).result (by decide)

theorem restore_resumes_sample :
    (sampleTask.op.rows .left).entries.map (fun e => (e.1, e.2.matched)) = [(1, true), (2, false)] ∧
    ∃ bytes freeze t', sampleTask.op.encodeState 7 sampleTask.states sampleTask.emitted 64 = .ok bytes ∧
      AnalysisFreeze.decode 64 bytes = .ok (freeze, []) ∧ freeze.operator = 7 ∧
      sampleJoin.setDurable.restoreState (fun _ _ => .all) freeze =
        .ok (sampleTask.op, sampleTask.states, sampleTask.emitted) ∧
      start { op := sampleTask.op, states := sampleTask.states, emitted := sampleTask.emitted }
        (sampleTask.sequence - 1) sampleTask.previousTime = .ok t' ∧
      ∀ later, t'.run sampleJob later = ({ sampleTask with barriers := fun _ => none } :
        JoinTask).run sampleJob later := by
  have hdu : ∀ d ∈ sampleRound, d.Durable sampleJoin.toJoinConfig := fun d hd => by
    refine (List.mem_append.mp hd).elim (samplePort_durable (fun row hr => ?_) (by decide) d)
      (samplePort_durable (fun row hr => ?_) (by decide) d)
    · simp only [mem_cons, not_mem_nil, or_false] at hr
      rcases hr with rfl | rfl <;> exact sampleJoinRow_storable _ _ _
    · rw [List.mem_singleton.mp hr]
      exact sampleJoinRow_storable _ _ _
  have hn : new sampleJoinSpec sampleJoinSchema sampleJoinSchema 64 64 = .ok sampleJoin := Result.eq_value _
  have hs : start (.fresh sampleJoin.setDurable) 0 0 =
      .ok (startOf (.fresh sampleJoin.setDurable) 0 0) := rfl
  have hru : ((startOf (.fresh sampleJoin.setDurable) 0 0).run
      sampleJob sampleRound).result = .ok sampleTask := Result.eq_value _
  have hre := restore_resumes hn hs hdu hru (by decide) (by decide) (by decide) (by decide : 64 ≤ 64)
    (show ∀ side o site kind n, (fun _ _ => .all : Side → ℕ → Grants) side o site kind n =
      .ok () from fun _ _ _ _ _ => rfl)
  exact ⟨by decide, hre⟩

/-- **What a durable join retains**, after any run: no more rows than it may, none that the other input's watermark has
passed, each under its number with the times of its row; every key with the number of its rows. The progress it has sent
is that of its state. -/
theorem join_bounded {spec : StreamJoinSpec} {left right : Schema} {budgetKeys maxKeys sequence : ℕ}
    {op : BoundedJoin} {micros : ℤ} {t₀ t : JoinTask} {ctx : JobCtx} {deliveries : List Delivery}
    (hnew : new spec left right budgetKeys maxKeys = .ok op)
    (hstart : start (.fresh op.setDurable) sequence micros = .ok t₀)
    (hdurable : ∀ d ∈ deliveries, d.Durable op.toJoinConfig) (hrun : (t₀.run ctx deliveries).result = .ok t) :
    (∀ side, (t.op.rows side).size ≤ spec.maxRowsPerSide ∧ ∀ id r, (t.op.rows side).get? id = some r →
      (1 ≤ id ∧ id ≤ t.op.sequence side) ∧ op.closeTime side r.time = some r.expires ∧
        ∀ wm, inputWatermark (t.states side.other) = some wm → wm < r.expires) ∧
    t.op.retained ≤ min maxKeys budgetKeys ∧
    (∀ key, t.op.keys.get? key = if t.op.keyCount key = 0 then none else some (t.op.keyCount key)) ∧
    t.emitted = { watermark := t.op.progress, idle := t.eof, eof := t.eof } := by
  obtain ⟨hs, -⟩ := run_settled hnew hstart hdurable hrun
  obtain ⟨output, -, hop⟩ := bind_eq_ok.mp hnew
  cases hop
  have hc := hs.config
  refine ⟨fun side => ⟨?_, fun id r hr => ⟨hs.kept.numbered side id r hr, ?_, fun wm hwm => ?_⟩⟩, ?_,
    hs.kept.keys, hs.emitted_eq⟩
  · have hro := hs.kept.room side
    rwa [hc] at hro
  · have hh := (hs.kept.held side id r hr).closes
    rwa [hc] at hh
  · exact expired_eq_none.mp hs.drained side wm id r ((hs.watermarks _).trans hwm) hr
  · have ht := hs.kept.total (by rw [hc]; rfl)
    rwa [hc] at ht

def samplePair : List Delivery :=
  samplePort .left 1 5 [sampleJoinRow (.int64 1) 10] 40 0 ++ samplePort .right 1 5 [sampleJoinRow (.int64 1) 10] 20 0

theorem join_bounded_sample : ∃ t, ((startOf (.fresh sampleJoin.setDurable) 0 0).run sampleJob
    samplePair).result = .ok t ∧
    t.op.retained = 1 ∧ t.emitted.watermark = some 20 ∧ t.op.retained ≤ 64 ∧
      t.emitted = { watermark := t.op.progress, idle := t.eof, eof := t.eof } := by
  have hn : new sampleJoinSpec sampleJoinSchema sampleJoinSchema 64 64 = .ok sampleJoin := Result.eq_value _
  have hs : start (.fresh sampleJoin.setDurable) 0 0 = .ok (startOf (.fresh sampleJoin.setDurable) 0 0) := rfl
  have hr : ∀ side, ∀ row ∈ [sampleJoinRow (.int64 1) 10], sampleJoin.toJoinConfig.Storable side row := fun side =>
    forall_mem_singleton.mpr (sampleJoinRow_storable side 1 10)
  have hdu : ∀ d ∈ samplePair, d.Durable sampleJoin.toJoinConfig := fun d hd =>
    (mem_append.mp hd).elim (samplePort_durable (hr _) (by decide) d) (samplePort_durable (hr _) (by decide) d)
  have hok : ((startOf (.fresh sampleJoin.setDurable) 0 0).run sampleJob
      samplePair).result.toOption.isSome = true := by decide
  obtain ⟨-, hb, -, he⟩ := join_bounded hn hs hdu (Result.eq_value hok)
  exact ⟨_, Result.eq_value hok, rfl, rfl, hb, he⟩

end Sparrow.Runtime
