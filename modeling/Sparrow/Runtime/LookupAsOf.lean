import Sparrow.Library.Machine
import Sparrow.Runtime.Lookup

/-!
# Temporal lookup as an as-of join

A row is extended by the columns of the version that was the latest at the row's time.
Versions are published while a batch is under way, and the operator looks at the table once
for every row: so a batch sees one state of the history when nothing that happens during it
concerns the rows it has already looked up.

## What is proved

* `publish_ok`, `tableAsOf_publish`, `tableAsOf_gcBefore` — what the two writers change.
* `as_of_join` — a batch that nothing concerns is joined with one state of the history.
* `split_batch` — another batch may not be.
-/

namespace Sparrow.Runtime

open Library Model Function Machine List Option LookupOperator VersionedReferenceTable

/-! ### What the writers change -/

namespace VersionedReferenceTable

variable {t t' : VersionedReferenceTable} {version : ℕ} {validFrom time : ℤ} {table : ReferenceTable}

theorem publish_ok : (t.publish version validFrom table).Ensures fun t' =>
    (t.versions = [] ∧ t'.versions = [{ version, validFrom, validTo := none, table }]) ∨
    ∃ older last, t.versions = older ++ [last] ∧ last.validFrom < validFrom ∧ table.schema = last.table.schema ∧
      t'.versions = older ++ [last.close validFrom, { version, validFrom, validTo := none, table }] := by
  refine .bind fun _ _ => ?_
  unfold push
  split
  next hl => exact .bind fun _ _ => .ok (.inl ⟨List.getLast?_eq_none_iff.mp hl, rfl⟩)
  next last hl =>
    split
    next => exact .error
    next hf =>
      obtain ⟨-, hfr, hs, -⟩ := follows_ok hf
      have hold := (dropLast_append_getLast? last hl).symm
      exact .bind fun _ _ => .ok (.inr ⟨_, last, hold, hfr, hs, rfl⟩)

theorem tableAsOf_publish (h : t.publish version validFrom table = .ok t') (hti : time < validFrom) :
    t'.tableAsOf time = t.tableAsOf time := by
  unfold tableAsOf
  rcases publish_ok h with ⟨hni, ho⟩ | ⟨older, last, hold, -, -, hn⟩
  · rw [hni, ho, ← nil_append [_], asOf_concat_eq]
    have hco : covers TableVersion.validFrom TableVersion.validTo time
        { version, validFrom, validTo := none, table } = false := by
      rw [← Bool.not_eq_true, covers_iff]
      exact fun hc => absurd hc.1 (not_le.mpr hti)
    rw [hco]
    rfl
  · have ht := t.tiles
    rw [hold] at ht ⊢
    rw [hn]
    refine asOf_concat TableVersion.table ht rfl ?_ rfl hti
    rw [TableVersion.close, ht.last last (by simp)]
    rfl

theorem tableAsOf_gcBefore (t : VersionedReferenceTable) {safeWatermark : ℤ} (ht : safeWatermark ≤ time) :
    (t.gcBefore safeWatermark).tableAsOf time = t.tableAsOf time := by
  unfold tableAsOf gcBefore
  rw [asOf_filter _ ht]

theorem gcBefore_ne_nil (safeWatermark : ℤ) (h : t.versions ≠ []) : (t.gcBefore safeWatermark).versions ≠ [] := by
  obtain ⟨older, last, hold⟩ := eq_nil_or_concat t.versions |>.resolve_left h
  have ho : last.validTo = none := t.tiles.last last (by rw [hold]; simp)
  refine ne_nil_of_mem (a := last) (List.mem_filter.mpr ⟨by rw [hold]; simp, ?_⟩)
  rw [ho]
  rfl

end VersionedReferenceTable

/-- The version of a time, in a list of versions: the one that has started last, if any has. -/
def Latest (versions : List TableVersion) (time : ℤ) : Option TableVersion → Prop
  | some v => v ∈ versions ∧ v.validFrom ≤ time ∧ ∀ v' ∈ versions, v'.validFrom ≤ time → v'.validFrom ≤ v.validFrom
  | none => ∀ v ∈ versions, time < v.validFrom

theorem VersionedReferenceTable.latest_tableAsOf (t : VersionedReferenceTable) (time : ℤ) :
    ∃ found, Latest t.versions time found ∧ t.tableAsOf time = found.map TableVersion.table := by
  refine ⟨asOf TableVersion.validFrom TableVersion.validTo t.versions time, ?_, rfl⟩
  cases h : asOf TableVersion.validFrom TableVersion.validTo t.versions time with
  | none => exact (asOf_eq_none t.tiles).mp h
  | some v => exact (asOf_eq_some t.tiles).mp h

/-! ### One row -/

variable {idx : List ℕ} {f : Flight}

namespace LookupOperator

variable {op : LookupOperator} {row out : Row} {table : Option ReferenceTable} {schema : Schema}

/-- A row extended from a table: by the kept columns of the row under its key, by NULLs if
there is none. -/
def extend (op : LookupOperator) (row : Row) (table : Option ReferenceTable) : Row :=
  match table.bind fun t => (t.get (keyOf op.streamIdx row)).map Subtype.val with
  | some hit => ⟨row.values ++ op.keepIdx.map fun i => hit.values.getD i .null⟩
  | none => ⟨row.values ++ List.replicate op.keepIdx.length .null⟩

/-- The operator is bound to tables with these columns. -/
def Bound (op : LookupOperator) (schema : Schema) : Prop :=
  ∃ kept : List Field, List.Forall₂ (fun i f => schema.fields[i]? = some f) op.keepIdx kept ∧
    op.output.fields = op.input.fields ++ kept.map fun f => { f with nullable := true }

theorem lookupFields_ok {table : Schema} {fields : List Field} {keep : List String} :
    (lookupFields table fields keep).Ensures fun fields' =>
      ∃ kept, List.Forall₂ (fun name f => table.fieldByName name = some f) keep kept ∧
        fields' = fields ++ kept.map fun f => { f with nullable := true } := by
  induction keep generalizing fields with
  | nil => exact .ok ⟨[], .nil, by simp⟩
  | cons name rest ih =>
    unfold lookupFields
    split
    · exact .error
    next f hf =>
      refine .bind fun _ _ fields' h => ?_
      obtain ⟨kept, hk, rfl⟩ := ih h
      exact ⟨f :: kept, .cons hf hk, by simp⟩

variable {names : List String}

theorem resolveKeys_ok : (WindowOperator.resolveKeys schema names).Ensures
    (List.Forall₂ (fun name i => schema.indexOfName name = some i) names) := by
  refine fun idx h => (Result.forall₂_of_mapM h).imp fun name i hi => ?_
  cases hn : schema.indexOfName name with
  | none => simp [hn] at hi
  | some i' => simpa [hn] using hi

theorem getElem?_of_names {name : String} {i : ℕ} {f : Field} (hi : schema.indexOfName name = some i)
    (hf : schema.fieldByName name = some f) : schema.fields[i]? = some f := by
  unfold Schema.indexOfName at hi
  unfold Schema.fieldByName at hf
  rw [find?_eq_some_iff_getElem] at hf
  rw [findIdx?_eq_some_iff_getElem] at hi
  obtain ⟨hn, k, hk, rfl, hb⟩ := hf
  obtain ⟨hlt, hn', hb'⟩ := hi
  rw [List.getElem?_eq_some_iff]
  -- both are the first column of that name
  rcases lt_trichotomy i k with h | rfl | h
  · have := hb i h
    simp_all
  · exact ⟨hlt, rfl⟩
  · have := hb' k h
    simp_all

variable {kept : List Field}

theorem kept_at (hid : List.Forall₂ (fun name i => schema.indexOfName name = some i) names idx)
    (hk : List.Forall₂ (fun name f => schema.fieldByName name = some f) names kept) :
    List.Forall₂ (fun i f => schema.fields[i]? = some f) idx kept := by
  induction hid generalizing kept with
  | nil =>
    cases hk
    exact .nil
  | cons hi _ ih =>
    cases hk with
    | cons hf hk => exact .cons (getElem?_of_names hi hf) (ih hk)

theorem newVersioned_ok {spec : LookupSpec} {t : VersionedReferenceTable} {input : Schema} :
    (newVersioned spec t input).Ensures fun op => ∃ last, t.latest = some last ∧ op.Bound last.schema := by
  refine .bind fun _ _ => .bind fun _ _ => ?_
  cases hl : t.latest with
  | none => exact .error
  | some last =>
    refine .bind fun _ _ => .bind fun _ _ => .bind fun streamIdx _ => .bind fun _ _ => .bind fun tableIdx _ => ?_
    refine .bind fun _ _ => .bind fun _ _ => .bind fun keepIdx hk => .bind fun asOfIdx _ => ?_
    refine .bind fun output ho => .ok ?_
    obtain ⟨fields, hf, ho⟩ := bind_eq_ok.mp ho
    replace ho := after_check ho
    cases ho
    obtain ⟨kept, hke, rfl⟩ := lookupFields_ok hf
    exact ⟨last, rfl, kept, kept_at (resolveKeys_ok hk) hke, rfl⟩

theorem keptValues_ok (hit : FitRow schema)
    (h : List.Forall₂ (fun i f => schema.fields[i]? = some f) idx kept) :
    idx.mapM (keptValue hit.1) = .ok (idx.map fun i => hit.1.values.getD i .null) ∧
      List.Forall₂ (fun v f => Field.Takes f v) (idx.map fun i => hit.1.values.getD i .null)
        (kept.map fun f => { f with nullable := true }) := by
  induction h with
  | nil => exact ⟨rfl, .nil⟩
  | @cons i f idx kept hf _ ih =>
    obtain ⟨v, hv, ht⟩ := hit.2.takes hf
    have hg : hit.1.values.getD i .null = v := by rw [getD_eq_getElem?_getD, hv]; rfl
    have hva : keptValue hit.1 i = .ok v := by rw [keptValue, hv]
    refine ⟨?_, ?_⟩
    · rw [mapM_cons, hva, ih.1, map_cons, hg]
      rfl
    · rw [map_cons, map_cons, hg]
      exact .cons ⟨fun _ => rfl, ht.2⟩ ih.2

theorem nulls_ok (kept : List Field) :
    List.Forall₂ (fun v f => Field.Takes f v) (List.replicate kept.length .null)
      (kept.map fun f => { f with nullable := true }) := by
  induction kept with
  | nil => exact .nil
  | cons f rest ih => exact .cons ⟨fun _ => rfl, nofun⟩ ih

/-- **A row that fits is extended to a row that fits.** -/
theorem outputRow_ok (hb : op.Bound schema) (hr : Row.Fits op.input row)
    (hta : ∀ t, table = some t → t.schema = schema) :
    op.outputRow row table = .ok (op.extend row table) ∧ checkRow op.output (op.extend row table) = .ok () := by
  obtain ⟨kept, hk, ho⟩ := hb
  have hs : op.output = ⟨op.input.fields ++ kept.map fun f => { f with nullable := true }⟩ := by
    rw [← ho]
  have hn : checkRow op.output ⟨row.values ++ List.replicate op.keepIdx.length .null⟩ = .ok () := by
    rw [checkRow_eq_ok, hs, hk.length_eq]
    exact hr.append (nulls_ok kept)
  unfold outputRow extend
  cases ht : table with
  | none => exact ⟨rfl, hn⟩
  | some t =>
    cases hg : t.get (keyOf op.streamIdx row) with
    | none =>
      simp only [bind_some, hg, map_none]
      exact ⟨trivial, hn⟩
    | some hit =>
      obtain rfl := hta t ht
      obtain ⟨hv, htak⟩ := keptValues_ok hit hk
      simp only [bind_some, hg, map_some]
      refine ⟨?_, ?_⟩
      · rw [hv]
        rfl
      · rw [checkRow_eq_ok, hs]
        exact hr.append htak

end LookupOperator

/-! ### Every state -/

namespace World

/-- What each call answers and changes. -/
inductive Does (w : World) : LookupCall → List LookupReport × World → Prop where
  | nothing {c : LookupCall} {reports : List LookupReport}
      (hnever : ∀ i r, LookupReport.done i r ∈ reports → ∃ batch leases, c = .begin i batch leases) :
      Does w c (reports, w)
  | publish {version : ℕ} {validFrom : ℤ} {t : ReferenceTable} {table : VersionedReferenceTable}
      (h : w.table.publish version validFrom t = .ok table) :
      Does w (.publish version validFrom t) ([.published (.ok ())], { w with table })
  | gcBefore {safeWatermark : ℤ} {n : ℕ} :
      Does w (.gcBefore safeWatermark) ([.collected n], { w with table := w.table.gcBefore safeWatermark })
  | bind {i : ℕ} {spec : LookupSpec} {input : Schema} {op : LookupOperator} (hnone : w.operators i = none)
      (h : newVersioned spec w.table input = .ok op) :
      Does w (.bind i spec input)
        ([.bound i (.ok ())], { w with operators := update w.operators i (some op) })
  | begin {i : ℕ} {batch : RowBatch} {leases : LookupLeases} {op : LookupOperator} {f : Flight}
      (hop : w.operators i = some op) (hidle : w.flights i = none) (h : begun op batch leases = .ok (some f)) :
      Does w (.begin i batch leases) ([], { w with flights := update w.flights i (some f) })
  | select {i : ℕ} {op : LookupOperator} {f : Flight} {row : Row} {table : Option ReferenceTable}
      (hop : w.operators i = some op) (hf : w.flights i = some f) (hrow : f.rows[f.selected.length]? = some row)
      (h : op.selectTable w.table row = .ok table) :
      Does w (.select i) ([], { w with
        flights := update w.flights i (some { f with selected := f.selected ++ [table] }) })
  | fail {i : ℕ} {op : LookupOperator} {f : Flight} {row : Row} {e : SparrowError}
      (hop : w.operators i = some op) (hf : w.flights i = some f) (hrow : f.rows[f.selected.length]? = some row)
      (h : op.selectTable w.table row = .error e) :
      Does w (.select i) ([.done i (.error e)], { w with flights := update w.flights i none })
  | finish {i : ℕ} {op : LookupOperator} {f : Flight} (hop : w.operators i = some op) (hf : w.flights i = some f)
      (hall : f.rows.length ≤ f.selected.length) :
      Does w (.finish i) ([.done i (finished op f)], { w with flights := update w.flights i none })

theorem does_step (w : World) (c : LookupCall) : Does w c (w.step c) := by
  unfold step
  split
  case h_4 i batch leases =>
    split
    · next hop hi =>
      split
      · exact .nothing fun j r hr => ⟨batch, leases, by simp_all⟩
      · exact .nothing fun j r hr => ⟨batch, leases, by simp_all⟩
      · next h => exact .begin hop hi h
    · exact .nothing (by simp)
  · -- `publish`
    split
    · exact .nothing (by simp)
    · next h => exact .publish h
  · exact .gcBefore
  · -- `bind`
    split
    · exact .nothing (by simp)
    next hop =>
      split
      · exact .nothing (by simp)
      · next h => exact .bind hop h
  · -- `select`
    split
    · next hop hf =>
      split
      · exact .nothing (by simp)
      next hro =>
        split
        · next h => exact .fail hop hf hro h
        · next h => exact .select hop hf hro h
    · exact .nothing (by simp)
  · -- `finish`
    split
    · next hop hf =>
      split_ifs with hl
      · exact .nothing (by simp)
      · exact .finish hop hf (not_lt.mp hl)
    · exact .nothing (by simp)

/-- What holds between any two calls. -/
structure Sound (w : World) : Prop where
  uniform : ∀ v ∈ w.table.versions, ∀ v' ∈ w.table.versions, v.table.schema = v'.table.schema
  bound : ∀ i op, w.operators i = some op → ∃ v ∈ w.table.versions, op.Bound v.table.schema
  /-- The rows of a batch are valid, and the tables selected for it have the right columns. -/
  flights : ∀ i op f, w.operators i = some op → w.flights i = some f →
    (∀ row ∈ f.rows, Row.Fits op.input row ∧ (op.rowAsOf row).isSome = true) ∧
      (∀ t, some t ∈ f.selected → op.Bound t.schema) ∧ f.selected.length ≤ f.rows.length
  owned : ∀ i, w.operators i = none → w.flights i = none

theorem Sound.start (t : VersionedReferenceTable) (hn : t.versions = []) : (start t).Sound := by
  refine ⟨fun v hv => ?_, fun i op hop => ?_, fun i op f hop => ?_, fun _ _ => rfl⟩
  · have hv : v ∈ t.versions := hv
    rw [hn] at hv
    cases hv
  · cases hop
  · cases hop

variable {w w' : World} {i : ℕ} {op : LookupOperator} {table : VersionedReferenceTable}

theorem Sound.write (hw : w.Sound)
    (hu : ∀ v ∈ table.versions, ∀ v' ∈ table.versions, v.table.schema = v'.table.schema)
    (hk : w.table.versions ≠ [] → ∃ v ∈ table.versions, ∃ v' ∈ w.table.versions, v.table.schema = v'.table.schema) :
    Sound { w with table } := by
  refine ⟨hu, fun i op hop => ?_, hw.flights, hw.owned⟩
  obtain ⟨v, hv, hb⟩ := hw.bound i op hop
  obtain ⟨v', hv', v'', hv'', hs⟩ := hk (ne_nil_of_mem hv)
  exact ⟨v', hv', hs ▸ hw.uniform v hv v'' hv'' ▸ hb⟩

theorem Sound.publish {version : ℕ} {validFrom : ℤ} {t : ReferenceTable}
    (hw : w.Sound) (h : w.table.publish version validFrom t = .ok table) : Sound { w with table } := by
  rcases publish_ok h with ⟨hni, ho⟩ | ⟨older, last, hold, -, hs, hn⟩
  · refine hw.write (fun v hv v' hv' => ?_) fun hne => absurd hni hne
    rw [ho, mem_singleton] at hv hv'
    rw [hv, hv']
  · -- every version has the columns of the one that was the last
    have hl : ∀ v ∈ table.versions, v.table.schema = last.table.schema := fun v hv => by
      rw [hn, mem_append, mem_cons, mem_singleton] at hv
      rcases hv with hv | rfl | rfl
      · exact hw.uniform v (by simp [hold, hv]) last (by simp [hold])
      · rfl
      · exact hs
    refine hw.write (fun v hv v' hv' => (hl v hv).trans (hl v' hv').symm) fun _ => ?_
    exact ⟨last.close validFrom, by simp [hn], last, by simp [hold], rfl⟩

theorem Sound.gcBefore (hw : w.Sound) (safeWatermark : ℤ) :
    Sound { w with table := w.table.gcBefore safeWatermark } := by
  have hm : ∀ v ∈ (w.table.gcBefore safeWatermark).versions, v ∈ w.table.versions :=
    fun v hv => mem_of_mem_filter hv
  refine hw.write (fun v hv v' hv' => hw.uniform v (hm v hv) v' (hm v' hv')) fun hne => ?_
  obtain ⟨v, hv⟩ := exists_mem_of_ne_nil _ (gcBefore_ne_nil safeWatermark hne)
  exact ⟨v, hv, v, hm v hv, rfl⟩

variable {batch : RowBatch}

theorem begun_ok {leases : LookupLeases} (h : begun op batch leases = .ok (some f)) :
    f = { rows := batch.rows, selected := [], leases } ∧
      ∀ row ∈ batch.rows, Row.Fits op.input row ∧ (op.rowAsOf row).isSome = true := by
  obtain ⟨_, hv, h⟩ := bind_eq_ok.mp h
  split_ifs at h
  · cases h
  replace h := after_check h
  refine ⟨(some.inj (Except.ok.inj h)).symm, ?_⟩
  replace hv := after_check hv
  generalize batch.rows = rows at hv ⊢
  generalize 0 = n at hv
  induction rows generalizing n with
  | nil => simp
  | cons row rest ih =>
    obtain ⟨_, hr, hv⟩ := bind_eq_ok.mp hv
    refine List.forall_mem_cons.mpr ⟨?_, ih (n + 1) hv⟩
    obtain ⟨fit, hf, hr⟩ := bind_eq_ok.mp hr
    replace hr := after_check hr
    have hs := refuseIf_eq_ok.mp hr
    unfold validateRow at hf
    split_ifs at hf with hfi
    refine ⟨hfi, ?_⟩
    cases ht : op.rowAsOf row with
    | none => simp [ht] at hs
    | some time => rfl

variable {row : Row} {t : VersionedReferenceTable}

theorem selectTable_mem {table : ReferenceTable}
    (h : op.selectTable t row = .ok (some table)) : ∃ v ∈ t.versions, v.table = table := by
  unfold selectTable at h
  cases ht : op.rowAsOf row with
  | none => simp [ht] at h
  | some time =>
    rw [ht] at h
    have h := Except.ok.inj h
    obtain ⟨v, hv, rfl⟩ := Option.map_eq_some_iff.mp h
    exact ⟨v, ((asOf_eq_some t.tiles).mp hv).1, rfl⟩

theorem Sound.fly (hw : w.Sound) {f : Option Flight} (hop : w.operators i = some op)
    (hf : ∀ f', f = some f' → (∀ row ∈ f'.rows, Row.Fits op.input row ∧ (op.rowAsOf row).isSome = true) ∧
      (∀ t, some t ∈ f'.selected → op.Bound t.schema) ∧ f'.selected.length ≤ f'.rows.length) :
    Sound { w with flights := update w.flights i f } := by
  refine ⟨hw.uniform, hw.bound, fun k op' f' ho' hf' => ?_, fun k hn => ?_⟩
  · obtain rfl | hk := eq_or_ne k i
    · simp only [update_self] at hf'
      cases hop.symm.trans ho'
      exact hf f' hf'
    · simp only [update_of_ne hk] at hf'
      exact hw.flights k op' f' ho' hf'
  · obtain rfl | hk := eq_or_ne k i
    · rw [hop] at hn
      cases hn
    · simp only [update_of_ne hk]
      exact hw.owned k hn

variable {x : List LookupReport × World} {c : LookupCall}

/-- **Every call keeps the state sound.** -/
theorem Sound.does (hw : w.Sound) (h : Does w c x) : x.2.Sound := by
  cases h with
  | nothing => exact hw
  | publish h => exact hw.publish h
  | gcBefore => exact hw.gcBefore _
  | @bind i _ _ op hn h =>
    refine ⟨hw.uniform, fun k op' ho' => ?_, fun k op' f ho' hf => ?_, fun k hk' => ?_⟩
    · obtain rfl | hk := eq_or_ne k i
      · simp only [update_self, some.injEq] at ho'
        subst ho'
        obtain ⟨last, hl, hb⟩ := newVersioned_ok h
        obtain ⟨v, hv, rfl⟩ := Option.map_eq_some_iff.mp hl
        exact ⟨v, mem_of_getLast? hv, hb⟩
      · simp only [update_of_ne hk] at ho'
        exact hw.bound k op' ho'
    · obtain rfl | hk := eq_or_ne k i
      · rw [hw.owned k hn] at hf
        cases hf
      · simp only [update_of_ne hk] at ho'
        exact hw.flights k op' f ho' hf
    · obtain rfl | hk := eq_or_ne k i
      · simp at hk'
      · simp only [update_of_ne hk] at hk'
        exact hw.owned k hk'
  | begin hop _ h =>
    obtain ⟨rfl, hr⟩ := begun_ok h
    refine hw.fly hop fun f' hf' => ?_
    cases hf'
    exact ⟨hr, fun t ht => by simp at ht, Nat.zero_le _⟩
  | @select i op f row table hop hf hro h =>
    refine hw.fly hop fun f' hf' => ?_
    cases hf'
    obtain ⟨hr, hs, -⟩ := hw.flights i op f hop hf
    refine ⟨hr, fun t ht => ?_, ?_⟩
    · rw [mem_append, mem_singleton] at ht
      rcases ht with ht | rfl
      · exact hs t ht
      · obtain ⟨v, hv, rfl⟩ := selectTable_mem h
        obtain ⟨v', hv', hb⟩ := hw.bound i op hop
        exact hw.uniform v' hv' v hv ▸ hb
    · obtain ⟨hlt, -⟩ := List.getElem?_eq_some_iff.mp hro
      simpa using Nat.succ_le_of_lt hlt
  | fail hop | finish hop => exact hw.fly hop fun f hf => by cases hf

variable (whole : Bool)

/-- The times a batch has already been looked up at; unless `whole`, only while there are rows left to
look up. -/
def lookedUp (w : World) (i : ℕ) : List ℤ :=
  match w.operators i, w.flights i with
  | some op, some f =>
    if whole ∨ f.selected.length < f.rows.length then (f.rows.take f.selected.length).filterMap op.rowAsOf else []
  | _, _ => []

/-- A call does not concern the rows that operator `i` has already looked up (or, unless `whole`, comes
after the last of them): what is published is valid from later on, and what is collected was valid earlier. -/
def Undisturbed (i : ℕ) (w : World) : LookupCall → Prop
  | .publish _ validFrom _ => ∀ time ∈ w.lookedUp whole i, time < validFrom
  | .gcBefore safeWatermark => ∀ time ∈ w.lookedUp whole i, safeWatermark ≤ time
  | _ => True

/-- The batch of operator `i`: what has been selected would be selected in `t`, the table as it is now unless
all rows have been looked up and not `whole`. -/
structure Flying (i : ℕ) (op : LookupOperator) (rows : List Row) (leases : LookupLeases) (t : VersionedReferenceTable)
    (w : World) : Prop where
  operator : w.operators i = some op
  flight : ∃ selected, w.flights i = some { rows, selected, leases } ∧
    (whole ∨ selected.length < rows.length → t = w.table) ∧
    ∀ (n : ℕ) row table, rows[n]? = some row → selected[n]? = some table → op.selectTable t row = .ok table

variable {rows : List Row} {leases : LookupLeases} {selected : List (Option ReferenceTable)}
  {time : ℤ} {whole}

theorem mem_lookedUp {n : ℕ} (hop : w.operators i = some op) (hf : w.flights i = some f)
    (hr : f.rows[n]? = some row) (hn : n < f.selected.length) (hti : op.rowAsOf row = some time)
    (hl : whole ∨ f.selected.length < f.rows.length) : time ∈ w.lookedUp whole i := by
  simp only [lookedUp, hop, hf, if_pos hl]
  refine List.mem_filterMap.mpr ⟨row, ?_, hti⟩
  have ht : (f.rows.take f.selected.length)[n]? = some row := by rw [getElem?_take_of_lt hn, hr]
  exact mem_of_getElem? ht

theorem selectTable_congr {t' : VersionedReferenceTable}
    (h : ∀ time, op.rowAsOf row = some time → t'.tableAsOf time = t.tableAsOf time) :
    op.selectTable t' row = op.selectTable t row := by
  unfold selectTable
  cases ht : op.rowAsOf row with
  | none => rfl
  | some time =>
    dsimp only
    rw [h time ht]

theorem Flying.write (hfl : Flying whole i op rows leases t w)
    (hs : ∀ time ∈ w.lookedUp whole i, table.tableAsOf time = w.table.tableAsOf time) :
    ∃ t', Flying whole i op rows leases t' { w with table } ∧ (t' = t ∨ t' = table) := by
  obtain ⟨selected, hf, ht, hse⟩ := hfl.flight
  by_cases hl : whole ∨ selected.length < rows.length
  · refine ⟨table, ⟨hfl.operator, selected, hf, fun _ => rfl, fun n row s hr hs' => ?_⟩, .inr rfl⟩
    rw [← hse n row s hr hs', ht hl]
    obtain ⟨hn, -⟩ := List.getElem?_eq_some_iff.mp hs'
    exact selectTable_congr fun time hti => hs time (mem_lookedUp hfl.operator hf hr hn hti hl)
  · exact ⟨t, ⟨hfl.operator, selected, hf, fun h => absurd h hl, hse⟩, .inl rfl⟩

theorem Flying.other {k : ℕ} {f : Option Flight} (hfl : Flying whole i op rows leases t w) (hk : i ≠ k) :
    Flying whole i op rows leases t { w with flights := update w.flights k f } := by
  obtain ⟨selected, hf, hs⟩ := hfl.flight
  exact ⟨hfl.operator, selected, by simpa only [update_of_ne hk] using hf, hs⟩

/-- **What is not disturbed stays as it was looked up.** -/
theorem Flying.does (hw : w.Sound)
    (hfl : Flying whole i op rows leases t w) (hc : c ≠ .finish i) (hq : Undisturbed whole i w c)
    (h : Does w c x) :
    ∃ t', Flying whole i op rows leases t' x.2 ∧ (t' = t ∨ t' = x.2.table) := by
  obtain ⟨selected, hf, ht, hs⟩ := hfl.flight
  cases h with
  | nothing => exact ⟨t, hfl, .inl rfl⟩
  | publish h =>
    exact hfl.write fun time hti => tableAsOf_publish h (hq time hti)
  | gcBefore => exact hfl.write fun time hti => tableAsOf_gcBefore _ (hq time hti)
  | @bind k _ _ op' hno h =>
    have hk : i ≠ k := fun hk => by
      subst hk
      rw [hfl.operator] at hno
      cases hno
    exact ⟨t, ⟨by simpa only [update_of_ne hk] using hfl.operator, hfl.flight⟩, .inl rfl⟩
  | @begin k _ _ op' f hop hi h =>
    have hk : i ≠ k := fun hk => by
      subst hk
      rw [hf] at hi
      cases hi
    exact ⟨t, hfl.other hk, .inl rfl⟩
  | @select k op' f row table hop hf' hr h =>
    obtain rfl | hk := eq_or_ne i k
    · cases hfl.operator.symm.trans hop
      cases hf.symm.trans hf'
      obtain rfl := ht (.inr (List.getElem?_eq_some_iff.mp hr).1)
      refine ⟨w.table, ⟨hop, selected ++ [table], by simp only [update_self], fun _ => rfl,
        fun n row' s hr' hs' => ?_⟩, .inl rfl⟩
      rcases lt_trichotomy n selected.length with hn | rfl | hn
      · rw [getElem?_append_left hn] at hs'
        exact hs n row' s hr' hs'
      · rw [getElem?_concat_length] at hs'
        cases hs'
        cases hr.symm.trans hr'
        exact h
      · rw [getElem?_eq_none (by simpa using Nat.succ_le_of_lt hn)] at hs'
        cases hs'
    · exact ⟨t, hfl.other hk, .inl rfl⟩
  | @fail k op' f row e hop hf' hr h =>
    by_cases hk : i = k
    · -- a row of the batch has a time
      subst hk
      cases hfl.operator.symm.trans hop
      obtain ⟨time, hti⟩ := Option.isSome_iff_exists.mp
        ((hw.flights i op f hop hf').1 row (mem_of_getElem? hr)).2
      simp [selectTable, hti] at h
    · exact ⟨t, hfl.other hk, .inl rfl⟩
  | @finish k op' f hop hf' ha =>
    have hk : i ≠ k := fun hk => hc (by rw [hk])
    exact ⟨t, hfl.other hk, .inl rfl⟩

/-! ### The join -/

/-- A row and what it is extended to, in a state of the history: from the version that is the
latest at the row's time. -/
def Enriched (op : LookupOperator) (versions : List TableVersion) (row out : Row) : Prop :=
  ∃ time found, op.rowAsOf row = some time ∧ Latest versions time found ∧
    out = op.extend row (found.map TableVersion.table)

theorem latest_unique (t : VersionedReferenceTable) {found found' : Option TableVersion}
    (h : Latest t.versions time found) (h' : Latest t.versions time found') : found = found' := by
  have ha : ∀ found, Latest t.versions time found →
      asOf TableVersion.validFrom TableVersion.validTo t.versions time = found := fun found h => by
    cases found with
    | none => exact (asOf_eq_none t.tiles).mpr h
    | some v => exact (asOf_eq_some t.tiles).mpr h
  rw [← ha found h, ha found' h']

theorem buildRows_ok (leases : LookupLeases) {schema : Schema} (hb : op.Bound schema)
    {l : List (Row × Option ReferenceTable)}
    (hl : ∀ p ∈ l, Row.Fits op.input p.1 ∧ ∀ t, p.2 = some t → op.Bound t.schema) (n : ℕ) :
    (∀ out, op.buildRows leases n l = .ok out → out = l.map fun p => op.extend p.1 p.2) ∧
      ((∀ n, leases.push n = .ok ()) → op.buildRows leases n l = .ok (l.map fun p => op.extend p.1 p.2)) := by
  induction l generalizing n with
  | nil => exact ⟨fun out h => (Except.ok.inj h).symm, fun _ => rfl⟩
  | cons p rest ih =>
    obtain ⟨row, table⟩ := p
    obtain ⟨⟨hr, ht⟩, hre⟩ := List.forall_mem_cons.mp hl
    obtain ⟨ihout, ihok⟩ := ih hre (n + 1)
    obtain ⟨ho, hc⟩ : op.outputRow row table = .ok (op.extend row table) ∧
        checkRow op.output (op.extend row table) = .ok () := by
      cases table with
      | none => exact outputRow_ok hb hr nofun
      | some t =>
        refine outputRow_ok (ht t rfl) hr fun t' ht' => ?_
        cases ht'
        rfl
    refine ⟨fun out h => ?_, fun hp => ?_⟩
    · unfold buildRows at h
      rw [ho] at h
      replace h := after_check (after_check h)
      obtain ⟨more, hm, h⟩ := bind_eq_ok.mp h
      cases h
      rw [ihout more hm]
      rfl
    · unfold buildRows
      refine bind_eq_ok.mpr ⟨_, ho, bind_eq_ok.mpr ⟨(), hc, ?_⟩⟩
      exact bind_eq_ok.mpr ⟨(), hp n, bind_eq_ok.mpr ⟨_, ihok hp, rfl⟩⟩

/-- A batch is joined with a state in which what it has selected would be selected. -/
theorem Flying.finish (hw : w.Sound) (hfl : Flying whole i op rows leases t w) (hf : w.flights i = some f)
    (ha : f.rows.length ≤ f.selected.length) :
    (∀ out, finished op f = .ok out → ∃ joined, out = some joined ∧
      List.Forall₂ (Enriched op t.versions) rows joined) ∧
    (leases.scratch = .ok () → (∀ n, leases.push n = .ok ()) → ∃ out, finished op f = .ok out) := by
  obtain ⟨selected, hf', -, hsel⟩ := hfl.flight
  cases hf'.symm.trans hf
  obtain ⟨hro, htab, hl⟩ := hw.flights i op _ hfl.operator hf
  obtain ⟨v, -, hb⟩ := hw.bound i op hfl.operator
  have hl : rows.length = selected.length := le_antisymm ha hl
  have hz : ∀ p ∈ rows.zip selected, Row.Fits op.input p.1 ∧ ∀ t, p.2 = some t → op.Bound t.schema := by
    rintro ⟨row, table⟩ hp
    obtain ⟨hr, hta⟩ := of_mem_zip hp
    exact ⟨(hro row hr).1, fun t ht => htab t (ht ▸ hta)⟩
  obtain ⟨ho, hok⟩ := buildRows_ok leases hb hz 0
  refine ⟨fun out h => ?_, fun hsc hpu => ?_⟩
  · replace h := after_check h
    obtain ⟨joined, hj, h⟩ := bind_eq_ok.mp h
    cases h
    refine ⟨joined, rfl, ?_⟩
    rw [ho joined hj, forall₂_iff_get]
    refine ⟨by simp [hl], fun n hn hn' => ?_⟩
    have hr : rows[n]? = some rows[n] := getElem?_eq_getElem hn
    have hta : selected[n]? = some selected[n] := getElem?_eq_getElem (hl ▸ hn)
    have hse := hsel n _ _ hr hta
    obtain ⟨time, hti⟩ := Option.isSome_iff_exists.mp (hro rows[n] (getElem_mem hn)).2
    obtain ⟨found, hla, hfo⟩ := t.latest_tableAsOf time
    refine ⟨time, found, hti, hla, ?_⟩
    have hs : selected[n] = found.map TableVersion.table := by
      rw [← hfo]
      simpa [selectTable, hti] using hse.symm
    simp [hs]
  · exact ⟨_, bind_eq_ok.mpr ⟨(), hsc, bind_eq_ok.mpr ⟨_, hok hpu, rfl⟩⟩⟩

theorem Flying.begin (hop : w.operators i = some op) (hi : w.flights i = none)
    (h : begun op batch leases = .ok (some f)) :
    Flying whole i op batch.rows leases (w.step (.begin i batch leases)).2.table
      (w.step (.begin i batch leases)).2 := by
  obtain ⟨rfl, -⟩ := begun_ok h
  have hs : w.step (.begin i batch leases) = ([], { w with
      flights := update w.flights i (some { rows := batch.rows, selected := [], leases }) }) := by
    simp only [step, hop, hi, h]
  rw [hs]
  exact ⟨hop, [], update_self .., fun _ => rfl, fun n row table _ ht => by simp at ht⟩

variable {calls : List LookupCall}

theorem Sound.run (hw : w.Sound) : (run step w calls).2.Sound :=
  run_invariant (fun w c hw => hw.does (does_step w c)) hw calls

/-- What explains a batch is the table before the calls, or as some of them have left it. -/
theorem Flying.run (hw : w.Sound) (hf : Flying whole i op rows leases t w)
    (hca : .finish i ∉ calls) (hq : Machine.Along step (Undisturbed whole i) w calls) :
    ∃ t', Flying whole i op rows leases t' (run step w calls).2 ∧
      (t' = t ∨ ∃ first, first <+: calls ∧ t' = (run step w first).2.table) := by
  induction calls generalizing w t with
  | nil => exact ⟨t, hf, .inl rfl⟩
  | cons c rest ih =>
    obtain ⟨hc, hr⟩ := hq
    rw [mem_cons, not_or] at hca
    have hd := does_step w c
    obtain ⟨t₁, hf₁, ht₁⟩ := hf.does hw (fun h => hca.1 h.symm) hc hd
    obtain ⟨t', hf', ht'⟩ := ih (hw.does hd) hf₁ hca.2 hr
    refine ⟨t', hf', ?_⟩
    obtain rfl | ⟨first, hp, rfl⟩ := ht'
    · exact ht₁.imp id fun h => ⟨[c], List.prefix_iff_eq_take.mpr rfl, h⟩
    · exact .inr ⟨c :: first, List.cons_prefix_cons.mpr ⟨rfl, hp⟩, rfl⟩

theorem enriched_congr (t : VersionedReferenceTable) {row' out out' : Row}
    (h : Enriched op t.versions row out) (h' : Enriched op t.versions row' out') (ht : op.rowAsOf row = op.rowAsOf row')
    (hk : keyOf op.streamIdx row = keyOf op.streamIdx row') :
    out.values.drop row.values.length = out'.values.drop row'.values.length := by
  obtain ⟨time, found, hr, hl, rfl⟩ := h
  obtain ⟨time', found', hr', hl', rfl⟩ := h'
  obtain rfl : time = time' := some.inj (hr.symm.trans (ht.trans hr'))
  obtain rfl := latest_unique t hl hl'
  unfold LookupOperator.extend
  rw [hk]
  split <;> simp

/-- **Temporal lookup is an as-of join.** In every state the versions tile the time and
collecting old ones changes no answer from the watermark on. A batch that is given to an
operator, and in which nothing that concerns the rows already looked up is published or collected
before the last of them is, is joined row by row with one state of the history during the batch;
with its last state, if nothing of the kind happens until it is finished (`whole`). -/
theorem as_of_join {name : String} {maxVersions : ℕ} {t : VersionedReferenceTable}
    (hnew : VersionedReferenceTable.new name maxVersions = .ok t) {calls : List LookupCall} {w : World}
    (hw : w = (run step (start t) calls).2) :
    (w.table.versions.Pairwise fun a b => ∃ stop, a.validTo = some stop ∧ stop ≤ b.validFrom) ∧
    (w.table.versions.IsChain fun a b => a.validTo = some b.validFrom) ∧
    (∀ older last, w.table.versions = older ++ [last] → ∀ v ∈ w.table.versions, v.validTo = none ↔ v = last) ∧
    (∀ safeWatermark time, safeWatermark ≤ time →
      (w.table.gcBefore safeWatermark).tableAsOf time = w.table.tableAsOf time) ∧
    ∀ i op batch leases f mid whole, w.operators i = some op → w.flights i = none →
      begun op batch leases = .ok (some f) → .finish i ∉ mid →
      Machine.Along step (Undisturbed whole i) (w.step (.begin i batch leases)).2 mid →
      ∀ w' r, w' = (run step (w.step (.begin i batch leases)).2 mid).2 → (w'.step (.finish i)).1 = [.done i r] →
        (leases.scratch = .ok () → (∀ n, leases.push n = .ok ()) → ∃ out, r = .ok out) ∧
        ∀ out, r = .ok out → ∃ joined first, out = some joined ∧ first <+: mid ∧ (whole → first = mid) ∧
          List.Forall₂ (Enriched op (run step (w.step (.begin i batch leases)).2 first).2.table.versions)
            batch.rows joined ∧
          ∀ p ∈ batch.rows.zip joined, ∀ q ∈ batch.rows.zip joined, op.rowAsOf p.1 = op.rowAsOf q.1 →
            keyOf op.streamIdx p.1 = keyOf op.streamIdx q.1 →
            p.2.values.drop p.1.values.length = q.2.values.drop q.1.values.length := by
  have hs : w.Sound := by
    rw [hw]
    replace hnew := after_check hnew
    cases hnew
    exact (Sound.start _ rfl).run
  refine ⟨w.table.tiles.pairwise.imp fun h => h.2, w.table.tiles.chain.imp fun _ _ h => h.1,
    fun older last hold v hv => ?_, fun safeWatermark time h => tableAsOf_gcBefore _ h, ?_⟩
  · have ht := w.table.tiles
    rw [hold] at ht hv
    exact ht.open_iff hv
  · intro i op batch leases f mid whole hop hi hb hfi hqu w' r hw' hd
    have hs₁ := hs.does (does_step w (.begin i batch leases))
    have hs' : w'.Sound := hw' ▸ hs₁.run
    obtain ⟨t', hf, ht'⟩ := (Flying.begin hop hi hb).run hs₁ hfi hqu
    obtain ⟨selected, hfl, ht, -⟩ := hf.flight
    obtain ⟨first, hp, hm, rfl⟩ : ∃ first, first <+: mid ∧ (whole → first = mid) ∧
        t' = (run step (w.step (.begin i batch leases)).2 first).2.table := by
      cases whole with
      | true => exact ⟨mid, prefix_rfl, fun _ => rfl, ht (.inl rfl)⟩
      | false =>
        exact ht'.elim (fun h => ⟨[], nil_prefix, nofun, h⟩) fun ⟨first, hp, h⟩ => ⟨first, hp, nofun, h⟩
    rw [← hw'] at hf hfl
    -- the batch ends only when every row has been looked up
    have ha : ¬ selected.length < batch.rows.length := fun hlt => by
      simp [step, hf.operator, hfl, hlt] at hd
    have hr : r = finished op { rows := batch.rows, selected, leases } := by
      simpa [step, hf.operator, hfl, ha] using hd.symm
    obtain ⟨ho, hok⟩ := hf.finish hs' hfl (not_lt.mp ha)
    refine ⟨hr ▸ hok, fun out h => ?_⟩
    obtain ⟨joined, rfl, hj⟩ := ho out (hr ▸ h)
    refine ⟨joined, first, rfl, hp, hm, hj, fun p hp q hq => ?_⟩
    obtain ⟨-, hz⟩ := List.forall₂_iff_zip.mp hj
    exact enriched_congr _ (hz hp) (hz hq)

/-! ### A batch that is split -/

def sampleSites : Schema := ⟨[⟨"id", .int64, false⟩, ⟨"site", .int64, true⟩]⟩

def sampleStream : Schema := ⟨[⟨"id", .int64, false⟩, ⟨"ts", .int64, false⟩]⟩

def sampleTable (version : ℕ) (site : Int64) : Result ReferenceTable :=
  ReferenceTable.snapshot "sites" version sampleSites ["id"] [⟨[.int64 1, .int64 site]⟩] 16 0 (.ok ())

def sampleRevision (version : ℕ) (site : Int64) (h : (sampleTable version site).toOption.isSome = true) :
    ReferenceTable := (sampleTable version site).value h

def sampleLookup : LookupSpec :=
  { table := "sites", streamKeys := ["id"], tableKeys := ["id"], keep := [], temporal := true, asOfField := some "ts" }

def sampleLeases : LookupLeases := { selection := .ok (), scratch := .ok (), push := fun _ => .ok () }

def sampleBatch : RowBatch := ⟨sampleStream, [⟨[.int64 1, .int64 100]⟩, ⟨[.int64 1, .int64 100]⟩]⟩

def sampleVersions : VersionedReferenceTable := { name := "sites", maxVersions := 8, versions := [], tiles := .nil }

def sampleSetup : List LookupCall :=
  [.publish 1 0 (sampleRevision 1 7 (by decide +kernel)), .bind 0 sampleLookup sampleStream]

/-- A batch, during which a version is published that is valid from `validFrom` on. -/
def sampleMid (validFrom : ℤ) : List LookupCall :=
  [.select 0, .publish 2 validFrom (sampleRevision 2 8 (by decide +kernel)), .select 0]

def sampleOperator : LookupOperator :=
  { streamIdx := [0], keepIdx := [1], asOfIdx := some 1, input := sampleStream
    output := ⟨sampleStream.fields ++ [⟨"site", .int64, true⟩]⟩ }

/-- **A publication splits a batch.** Two equal rows are looked up, and between them a version
is published that is valid from before their time: they get different sites, which no state
of the history explains. -/
theorem split_batch : ∃ joined, (run step (start sampleVersions)
        (sampleSetup ++ [.begin 0 sampleBatch sampleLeases] ++ sampleMid 50 ++ [.finish 0])).1.getLast? =
          some (.done 0 (.ok (some joined))) ∧
      (run step (start sampleVersions) sampleSetup).2.operators 0 = some sampleOperator ∧
      joined.map Row.values = [[.int64 1, .int64 100, .int64 7], [.int64 1, .int64 100, .int64 8]] ∧
      ¬ ∃ t : VersionedReferenceTable, List.Forall₂ (Enriched sampleOperator t.versions) sampleBatch.rows joined := by
  refine ⟨[⟨[.int64 1, .int64 100, .int64 7]⟩, ⟨[.int64 1, .int64 100, .int64 8]⟩], rfl, rfl, rfl, ?_⟩
  rintro ⟨t, hj⟩
  cases hj with
  | cons h hr =>
    cases hr with
    | cons h' _ =>
      have hs := enriched_congr t h h' rfl rfl
      simp at hs

/-- A later version is published between two rows, and the one they need is collected after them. -/
theorem as_of_join_sample :
    let w := (run step (start sampleVersions) sampleSetup).2
    let mid := sampleMid 200 ++ [.gcBefore 300]
    ∃ joined first, ((run step (w.step (.begin 0 sampleBatch sampleLeases)).2 mid).2.step (.finish 0)).1 =
          [.done 0 (.ok (some joined))] ∧
      joined.map Row.values = [[.int64 1, .int64 100, .int64 7], [.int64 1, .int64 100, .int64 7]] ∧ first <+: mid ∧
      List.Forall₂ (Enriched sampleOperator
        (run step (w.step (.begin 0 sampleBatch sampleLeases)).2 first).2.table.versions) sampleBatch.rows joined := by
  have hn : VersionedReferenceTable.new "sites" 8 = .ok sampleVersions := rfl
  intro w mid
  obtain ⟨-, -, -, -, hj⟩ := as_of_join hn (rfl : w = _)
  have hq : Machine.Along step (Undisturbed false 0) (w.step (.begin 0 sampleBatch sampleLeases)).2 mid := by
    refine ⟨trivial, fun time ht => ?_, trivial, fun time ht => absurd ht List.not_mem_nil, trivial⟩
    rw [List.mem_singleton.mp ht]
    decide
  obtain ⟨-, ho⟩ := hj 0 sampleOperator sampleBatch sampleLeases _ mid _ rfl rfl rfl
    (by simp [mid, sampleMid]) hq _ _ rfl rfl
  obtain ⟨joined, first, hjo, hp, -, he, -⟩ := ho _ rfl
  cases hjo
  exact ⟨_, first, rfl, rfl, hp, he⟩

end World

end Sparrow.Runtime
