import Sparrow.Runtime.JoinRuns
import Sparrow.Runtime.JoinSteps

/-!
# The output watermarks of a join

Whatever the ports deliver and in whatever order they are read, the watermarks a join
sends never fall, and no row it sends afterwards is older than one of them.

## The argument

The watermark sent is the largest `w` with `Floor w`: both inputs have come that far, and
in left mode no retained left row without partner is older. A row that arrives is not
older than its own input's watermark, so every step of the operator keeps every floor, and
every row it sends is at or above all of them.
-/

namespace Sparrow.Runtime

open Library Model Plan SortedMap List BoundedJoin Emits

/-! ### The statement -/

/-- The `join_time` column of a row sent. -/
def joinTime (row : Row) : Option ℤ :=
  match row.values[row.values.length - 3]? with
  | some (.int64 v) => some v
  | _ => none

/-- A later event respects an earlier watermark: the later watermark is there and not lower, the
later row is not older. -/
def Respects (earlier later : JoinEvent) : Prop :=
  match earlier, later with
  | .progress p, .progress q => ∀ w, p.watermark = some w → ∃ w', q.watermark = some w' ∧ w ≤ w'
  | .progress p, .row b => ∀ w, p.watermark = some w → ∀ r ∈ b.rows, ∃ t, joinTime r = some t ∧ w ≤ t
  | _, _ => True

/-- What a task starts from: a fresh operator, or one restored from a frame. -/
inductive Prepared (op : BoundedJoin) : JoinState → Prop where
  | fresh : Prepared op (.fresh op.setDurable)
  | restored {grants : Side → ℕ → Grants} {freeze : AnalysisFreeze} {op' : BoundedJoin} {states : Side → Progress}
      {emitted : Progress} (h : op.setDurable.restoreState grants freeze = .ok (op', states, emitted)) :
      Prepared op { op := op', states, emitted }

/-! ### Floors -/

variable {pending : Pending} {op : BoundedJoin}

namespace BoundedJoin

variable {j j' : BoundedJoin} {side : Side} {w : ℤ}

/-- Nothing older than `w` will be sent. -/
structure Floor (j : BoundedJoin) (w : ℤ) : Prop where
  inputs : ∀ side, ∃ wm, j.watermarks side = some wm ∧ w ≤ wm
  unmatched : j.spec.mode = .left → ∀ id r, (j.rows .left).get? id = some r → r.matched = false → w ≤ r.time

theorem le_foldl_min {α : Type} (f : α → ℤ) (l : List α) (a : ℤ) :
    w ≤ l.foldl (fun p e => min p (f e)) a ↔ w ≤ a ∧ ∀ e ∈ l, w ≤ f e := by
  induction l generalizing a with
  | nil => simp
  | cons e rest ih => simp [ih, and_assoc]

/-- **The progress is the largest floor.** -/
theorem floor_iff : j.Floor w ↔ ∃ p, j.progress = some p ∧ w ≤ p := by
  have hu : (∀ e ∈ (j.rows .left).entries.filter (fun e => !e.2.matched), w ≤ e.2.time) ↔
      ∀ id r, (j.rows .left).get? id = some r → r.matched = false → w ≤ r.time := by
    simp only [mem_filter, Bool.not_eq_true', and_imp, Prod.forall, mem_entries_iff]
  constructor
  · rintro ⟨hi, hle⟩
    obtain ⟨l, hl, hwl⟩ := hi .left
    obtain ⟨r, hr, hwr⟩ := hi .right
    by_cases hm : j.spec.mode = .left
    · exact ⟨_, by simp [progress, hl, hr, hm], (le_foldl_min _ _ _).mpr
        ⟨le_min hwl hwr, hu.mpr (hle hm)⟩⟩
    · exact ⟨_, by simp [progress, hl, hr, hm], le_min hwl hwr⟩
  · rintro ⟨p, hp, hwp⟩
    obtain ⟨l, hl, hp⟩ := Option.bind_eq_some_iff.mp hp
    obtain ⟨r, hr, hp⟩ := Option.bind_eq_some_iff.mp hp
    have hi : w ≤ min l r → ∀ side, ∃ wm, j.watermarks side = some wm ∧ w ≤ wm := fun hmi side =>
      match side with
      | .left => ⟨l, hl, hmi.trans (min_le_left l r)⟩
      | .right => ⟨r, hr, hmi.trans (min_le_right l r)⟩
    by_cases hm : j.spec.mode = .left
    · rw [if_pos hm] at hp
      cases hp
      obtain ⟨hmi, hro⟩ := (le_foldl_min _ _ _).mp hwp
      exact ⟨hi hmi, fun _ => hu.mp hro⟩
    · rw [if_neg hm] at hp
      cases hp
      exact ⟨hi hwp, fun h => absurd h hm⟩

variable {rows : SortedMap ℕ JoinRecord}

theorem Floor.of_marked (h : j.Floor w)
    (hro : ∀ id r, rows.get? id = some r → r.matched = false → (j.rows side).get? id = some r) :
    (j.setRows side rows).Floor w := by
  refine ⟨h.inputs, fun hm id r hr hr' => h.unmatched hm id r ?_ hr'⟩
  cases side with
  | left => exact hro id r (by simpa [setRows] using hr) hr'
  | right => simpa [setRows] using hr

theorem Floor.insert (h : j.Floor w) (ht : w ≤ pending.record.time) : (j.insert side pending).Floor w := by
  refine ⟨h.inputs, fun hm id r hr hr' => ?_⟩
  cases side with
  | right => exact h.unmatched hm id r (by simpa [insert, setRows] using hr) hr'
  | left =>
    simp only [insert, setRows, Function.update_self, get?_insert] at hr
    split_ifs at hr
    · exact Option.some.inj hr ▸ ht
    · exact h.unmatched hm id r hr hr'

variable {r : JoinRecord}

theorem Floor.without {id : ℕ} (h : j.Floor w) : (j.without side id r).Floor w := by
  have hs : (j.setRows side ((j.rows side).erase id)).Floor w := h.of_marked fun id' r' hr' _ => by
    exact (get?_erase_eq_some.mp hr').2
  exact ⟨hs.inputs, hs.unmatched⟩

theorem Floor.advance {time : ℤ} (h : j.Floor w) (ha : j.advance side time = .ok j') : j'.Floor w := by
  unfold BoundedJoin.advance at ha
  split_ifs at ha
  cases ha
  refine ⟨fun side' => ?_, h.unmatched⟩
  obtain ⟨wm, hwm, hle⟩ := h.inputs side'
  obtain rfl | hs := eq_or_ne side' side
  · exact ⟨_, Function.update_self .., by simpa [hwm] using .inl hle⟩
  · exact ⟨wm, by simpa [hs] using hwm, hle⟩

/-! ### The times of what is retained -/

/-- The times of the retained rows are `i64` values. -/
def Timed (j : BoundedJoin) : Prop := ∀ side id r, (j.rows side).get? id = some r → fitsI64 r.time = true

theorem Timed.setRows (h : j.Timed)
    (hro : ∀ id r, rows.get? id = some r → fitsI64 r.time = true) : (j.setRows side rows).Timed := by
  intro side' id r hr
  obtain rfl | hs := eq_or_ne side' side
  · exact hro id r (by simpa [setRows] using hr)
  · exact h side' id r (by simpa [BoundedJoin.setRows, hs] using hr)

theorem Timed.insert (h : j.Timed) (ht : fitsI64 pending.record.time = true) : (j.insert side pending).Timed := by
  refine h.setRows fun id r hr => ?_
  rw [get?_insert] at hr
  split_ifs at hr
  · exact Option.some.inj hr ▸ ht
  · exact h side id r hr

theorem Timed.of_rows (h : j.Timed) (hro : j'.rows = j.rows) : j'.Timed := by
  intro side id r hr
  rw [hro] at hr
  exact h side id r hr

theorem advanceTo_rows {p : Progress} (h : j.advanceTo side p = .ok j') : j'.rows = j.rows := by
  unfold advanceTo at h
  cases hwm : inputWatermark p with
  | none =>
    rw [hwm] at h
    exact Except.ok.inj h ▸ rfl
  | some wm =>
    simp only [hwm, advance] at h
    split_ifs at h
    exact Except.ok.inj h ▸ rfl

theorem Timed.without {id : ℕ} (h : j.Timed) : (j.without side id r).Timed := by
  refine h.setRows fun id' r' hr' => ?_
  exact h side id' r' (get?_erase_eq_some.mp hr').2

end BoundedJoin

/-! ### The log -/

variable {r : Option JoinRecord} {l : JoinRecord}

theorem joinTime_outputRow {c : JoinConfig}
    (h : fitsI64 (r.elim l.time fun r => max r.time l.time) = true) :
    joinTime (c.outputRow l r) = some (r.elim l.time fun r => max r.time l.time) := by
  simp only [joinTime, JoinConfig.outputRow, length_append, length_cons, length_nil,
    Nat.add_sub_cancel_right]
  simp [toInt_ofInt_of_fits h]

/-- **The invariant.** The log is in order, and every watermark in it is a floor of the operator, as is
the last one sent. -/
structure Timely (emitted : Progress) (log : List JoinEvent) (j : BoundedJoin) : Prop where
  ordered : log.Pairwise Respects
  clean : JoinEvent.regressed ∉ log
  floor : ∀ p w, JoinEvent.progress p ∈ log → p.watermark = some w → j.Floor w
  last : ∀ w, emitted.watermark = some w → j.Floor w
  /-- Times are `i64` values. -/
  timed : j.Timed

/-- What holds of the log however a run ends. -/
def Orderly (log : List JoinEvent) : Prop := log.Pairwise Respects ∧ JoinEvent.regressed ∉ log

namespace Timely

variable {emitted : Progress} {log : List JoinEvent} {j j' : BoundedJoin} {side : Side}

section

variable (h : Timely emitted log j)

include h

theorem orderly : Orderly log := ⟨h.ordered, h.clean⟩

theorem of_floor (hf : ∀ w, j.Floor w → j'.Floor w) (ht : j'.Timed) : Timely emitted log j' :=
  ⟨h.ordered, h.clean, fun p w hp hw => hf w (h.floor p w hp hw), fun w hw => hf w (h.last w hw), ht⟩

theorem row (hf : fitsI64 (r.elim l.time fun r => max r.time l.time) = true)
    (hfl : ∀ w, j.Floor w → w ≤ r.elim l.time fun r => max r.time l.time) :
    Timely emitted (log ++ [rowEvent j.toJoinConfig l r]) j := by
  refine ⟨pairwise_concat.mpr ⟨h.ordered, fun e he => ?_⟩, ?_, ?_, h.last, h.timed⟩
  · cases e with
    | progress p =>
      intro w hw r' hr'
      obtain rfl := List.mem_singleton.mp hr'
      exact ⟨_, joinTime_outputRow hf, hfl w (h.floor p w he hw)⟩
    | _ => trivial
  · simpa [rowEvent] using h.clean
  · intro p w hp
    exact h.floor p w (by simpa [rowEvent] using hp)

theorem quiet {e : JoinEvent} (hro : ∀ b, e ≠ .row b) (hpr : ∀ p, e ≠ .progress p)
    (hr : e ≠ .regressed) : Timely emitted (log ++ [e]) j := by
  refine ⟨pairwise_concat.mpr ⟨h.ordered, fun a _ => ?_⟩, ?_, ?_, h.last, h.timed⟩
  · cases a with
    | progress p =>
      cases e with
      | progress q => exact absurd rfl (hpr q)
      | row b => exact absurd rfl (hro b)
      | _ => trivial
    | _ => trivial
  · simpa using ⟨h.clean, hr.symm⟩
  · intro p w hp
    refine h.floor p w ?_
    rcases List.mem_append.mp hp with hp | hp
    · exact hp
    · exact absurd (List.mem_singleton.mp hp).symm (hpr p)

theorem pair {a b : JoinRecord} (ha : fitsI64 a.time = true) (hb : fitsI64 b.time = true)
    (hf : ∀ w, j.Floor w → w ≤ a.time) :
    Timely emitted (log ++ [pairEvent j.toJoinConfig side a b]) j := by
  have hm : fitsI64 (max b.time a.time) = true ∧ fitsI64 (max a.time b.time) = true := by
    rcases le_total a.time b.time with hle | hle <;> simp [hle, ha, hb]
  cases side with
  | left => exact h.row hm.1 fun w hw => (hf w hw).trans (le_max_right _ _)
  | right => exact h.row hm.2 fun w hw => (hf w hw).trans (le_max_left _ _)

end

/-- The row of this side that is being matched: not older than its input's watermark. -/
structure Current (j : BoundedJoin) (side : Side) (record : JoinRecord) : Prop where
  current : ∀ {wm}, j.watermarks side = some wm → wm ≤ record.time
  fits : fitsI64 record.time = true

theorem Current.floor {record : JoinRecord} (h : Current j side record) {w : ℤ} (hw : j.Floor w) : w ≤ record.time := by
  obtain ⟨wm, hwm, hle⟩ := hw.inputs side
  exact hle.trans (h.current hwm)

/-- **Sending a row with its partners.** -/
theorem emitMatches {grants : ℕ → Grants} {n after : ℕ} (h : Timely emitted log j)
    (hc : Current j side pending.record) :
    Ensures log (emitMatches side grants n after j pending) Orderly
      fun log' r => Timely emitted log' r.1 ∧ Current r.1 side r.2.record := by
  induction n generalizing log j pending after with
  | zero => exact .pure h.orderly ⟨h, hc⟩
  | succ n ih =>
    unfold emitMatches
    cases hnext : j.nextMatch side pending after with
    | none => exact .pure h.orderly ⟨h, hc⟩
    | some id =>
      refine .lift_bind h.orderly fun r he => ?_
      obtain ⟨b, j₁, pending₁⟩ := r
      obtain ⟨r, hr, hb, rfl, rfl⟩ := emitMatch_ok he
      refine .emit_bind (ih ?_ ⟨hc.current, hc.fits⟩)
      rw [hb]
      refine (h.pair hc.fits (h.timed _ _ _ hr) fun w hw => hc.floor hw).of_floor
        (fun w hw => hw.of_marked fun id' r' hr' hr'' => ?_) (h.timed.setRows fun id' r' hr' => ?_)
      · -- what is not marked now was there before
        rw [get?_modify] at hr'
        split_ifs at hr'
        · obtain ⟨r₀, -, rfl⟩ := Option.map_eq_some_iff.mp hr'
          simp [mark] at hr''
        · exact hr'
      · rw [get?_modify] at hr'
        split_ifs at hr'
        · obtain ⟨r₀, hr₀, rfl⟩ := Option.map_eq_some_iff.mp hr'
          exact h.timed side.other id' r₀ hr₀
        · exact h.timed side.other id' r' hr'

/-- **A row of an input.** -/
theorem pushRow {row : Row} {credits : Credits} (h : Timely emitted log j) :
    Ensures log (j.pushRow side row credits) Orderly fun log' r => Timely emitted log' (r.getD j) := by
  refine .lift_bind h.orderly fun o ho => ?_
  cases o with
  | none =>
    have hd := h.quiet (e := .futureDropped) (by simp) (by simp) (by simp)
    exact .emit_bind (.pure hd.orderly hd)
  | some pending =>
    obtain ⟨time, expires, ha, rfl⟩ := prepare_eq_some ho
    refine .lift_bind h.orderly fun _ _ => .emit_bind ?_
    have hac := h.quiet (e := .accepted side (j.pendingOf side row time expires).record)
      (by simp) (by simp) (by simp)
    refine (hac.emitMatches ⟨ha.current, ha.fits⟩).bind fun log' r hr => ?_
    obtain ⟨h', hc⟩ := hr
    have hi : Timely emitted log' (r.1.insert side r.2) :=
      h'.of_floor (fun w hw => hw.insert (hc.floor hw)) (h'.timed.insert hc.fits)
    exact .pure hi.orderly hi

/-- **Closing what has expired.** -/
theorem closeExpired {grants : Side → ℕ → Grants} {n : ℕ} (h : Timely emitted log j) :
    Ensures log (closeExpired grants n j) Orderly (Timely emitted) := by
  refine closeExpired_ensures (fun _ _ h => h.orderly) (fun log j side id wm r h _ hr _ => ?_) h
  have hs : Timely emitted (log ++ if j.alone side r then [rowEvent j.toJoinConfig r none] else []) j := by
    cases ha : j.alone side r with
    | false => simpa using h
    | true =>
      obtain ⟨rfl, hmo, hm⟩ := of_decide_eq_true ha
      exact h.row (h.timed _ _ _ hr) fun w hw => hw.unmatched hmo id r hr hm
  exact hs.of_floor (fun w hw => hw.without) hs.timed.without

end Timely

/-! ### The executor -/

def JoinState.Timely (log : List JoinEvent) (s : JoinState) : Prop := Runtime.Timely s.emitted log s.op

namespace JoinState

variable {log : List JoinEvent} {s : JoinState} {side : Side}

section

variable {emitted : Progress} (h : Runtime.Timely emitted log op) (next : Progress)
  (hnext : next.watermark = op.progress)

include h next hnext

theorem Timely.progress : Runtime.Timely next (log ++ [.progress next]) op := by
  have hf : ∀ w, next.watermark = some w → op.Floor w := fun w hw =>
    BoundedJoin.floor_iff.mpr ⟨w, hnext ▸ hw, le_rfl⟩
  refine ⟨pairwise_concat.mpr ⟨h.ordered, fun e he => ?_⟩, ?_, ?_, hf, h.timed⟩
  · cases e with
    | progress p =>
      intro w hw
      obtain ⟨w', hw', hle⟩ := BoundedJoin.floor_iff.mp (h.floor p w he hw)
      exact ⟨w', hnext.trans hw', hle⟩
    | _ => trivial
  · simpa using h.clean
  · intro p w hp hw
    rcases List.mem_append.mp hp with hp | hp
    · exact h.floor p w hp hw
    · obtain rfl : p = next := by simpa using hp
      exact hf w hw

theorem Timely.not_movesBack : movesBack emitted next = false := by
  unfold movesBack
  cases hw : emitted.watermark with
  | none => rfl
  | some w =>
    obtain ⟨w', hw', hle⟩ := BoundedJoin.floor_iff.mp (h.last w hw)
    simpa [hnext, hw'] using hle

end

theorem Timely.drain {credits : Credits} (h : s.Timely log) :
    Ensures log (s.drain credits) Orderly JoinState.Timely := by
  refine Ensures.bind (Runtime.Timely.closeExpired h) fun log' op h' => ?_
  have hb := Timely.not_movesBack h' { watermark := op.progress, idle := s.eof, eof := s.eof } rfl
  simp only [hb, Bool.false_eq_true, ↓reduceIte]
  split_ifs
  · have hs := Timely.progress h' { watermark := op.progress, idle := s.eof, eof := s.eof } rfl
    exact .emit_bind (.pure hs.orderly hs)
  · exact .pure h'.orderly h'

variable {credits : ℕ → Credits}

theorem Timely.dataRow {row : Row × ℕ} (h : s.Timely log) :
    Ensures log (s.dataRow side credits row) Orderly JoinState.Timely := by
  refine Ensures.bind (Runtime.Timely.pushRow h) fun log' r h' => ?_
  cases r with
  | none => exact .pure h'.orderly h'
  | some op => exact Timely.drain h'

theorem Timely.advanceTo {p : Progress} (h : s.Timely log) (hop : s.op.advanceTo side p = .ok op) :
    Runtime.Timely s.emitted log op := by
  refine h.of_floor (fun w hw => ?_) (h.timed.of_rows (advanceTo_rows hop))
  unfold BoundedJoin.advanceTo at hop
  cases hwm : inputWatermark p with
  | none =>
    rw [hwm] at hop
    exact Except.ok.inj hop ▸ hw
  | some wm =>
    rw [hwm] at hop
    exact hw.advance hop

theorem Timely.item {i : Item} (h : s.Timely log) :
    Ensures log (s.item side credits i) Orderly JoinState.Timely := by
  cases i with
  | progress next =>
    refine .lift_bind h.orderly fun _ _ => .lift_bind h.orderly fun op hop => ?_
    exact Timely.drain (s := { s with op, states := Function.update s.states side next }) (h.advanceTo hop)
  | data rows =>
    refine .lift_bind h.orderly fun _ _ => ?_
    refine (Ensures.foldM (G := fun _ => True) (fun _ _ h => h.orderly) (fun _ _ _ _ h => Timely.dataRow h)
      (fun _ _ => trivial) h).bind fun _ _ h' => Timely.drain h'

theorem Timely.boundary {e : JoinEvent} (he : e.IsBoundary) (h : s.Timely log) : s.Timely (log ++ [e]) := by
  cases he <;> exact h.quiet (by simp) (by simp) (by simp)

end JoinState

/-! ### The start -/

theorem BoundedJoin.Timed.restoreRow {side : Side} {grants : ℕ → Grants} {j j' : BoundedJoin} {saved : JoinRowFreeze}
    (h : j.Timed) (hro : restoreRow side grants j saved = .ok j') : j'.Timed := by
  replace hro := after_check hro
  obtain ⟨o, ho, hro⟩ := bind_eq_ok.mp hro
  cases o with
  | none => cases hro
  | some pending =>
    replace hro := after_check hro
    cases hro
    obtain ⟨time, expires, ha, rfl⟩ := prepare_eq_some ho
    exact Timed.insert (fun side id r hr => h side id r hr) ha.fits

theorem Prepared.timely {spec : StreamJoinSpec} {left right : Schema} {budgetKeys maxKeys : ℕ} {s : JoinState}
    (hn : BoundedJoin.new spec left right budgetKeys maxKeys = .ok op) (h : Prepared op s) :
    s.Timely [] := by
  obtain ⟨output, -, hn⟩ := bind_eq_ok.mp hn
  cases hn
  have hf : ∀ {c : JoinConfig} {keys sequence watermarks},
      (⟨c, fun _ => .empty, keys, sequence, watermarks⟩ : BoundedJoin).Timed := fun _ _ _ h => by cases h
  cases h with
  | fresh =>
    exact ⟨List.Pairwise.nil, not_mem_nil, fun p w h => absurd h not_mem_nil, fun w h => (by cases h), hf⟩
  | restored h =>
    replace h := after_check h
    split at h
    · cases h
    · obtain ⟨j₁, h₁, h⟩ := bind_eq_ok.mp h
      obtain ⟨j₂, h₂, h⟩ := bind_eq_ok.mp h
      obtain ⟨j₃, h₃, h⟩ := bind_eq_ok.mp h
      obtain ⟨j₄, h₄, h⟩ := bind_eq_ok.mp h
      obtain ⟨hc, h⟩ := guard_eq_ok.mp h
      have ht₂ : j₂.Timed := Result.foldlM_invariant (fun _ _ _ => Timed.restoreRow)
        (Result.foldlM_invariant (fun _ _ _ => Timed.restoreRow) hf h₁) h₂
      have hr₃ := advanceTo_rows h₃
      have ht₃ : j₃.Timed := ht₂.of_rows hr₃
      have ht₄ : j₄.Timed := ht₃.of_rows (advanceTo_rows h₄)
      have hc := not_or.mp hc
      cases h
      refine ⟨List.Pairwise.nil, not_mem_nil, fun p w h => absurd h not_mem_nil, fun w hw => ?_, ht₄⟩
      exact BoundedJoin.floor_iff.mpr ⟨w, (not_not.mp hc.2).symm.trans hw, le_rfl⟩

/-- **The output watermarks of a join are sound.** Along every run of the executor, from a fresh or a
restored state and also if it ends in an error, later watermarks are not lower, later rows are not
older, and the check of the output watermark never fails. -/
theorem watermarks_sound {spec : StreamJoinSpec} {left right : Schema} {budgetKeys maxKeys sequence : ℕ}
    {op : BoundedJoin} {s : JoinState} {micros : ℤ} {t : JoinTask}
    (hnew : BoundedJoin.new spec left right budgetKeys maxKeys = .ok op) (hprepared : Prepared op s)
    (hstart : JoinTask.start s sequence micros = .ok t) (ctx : JobCtx) (deliveries : List Delivery) :
    (t.run ctx deliveries).sent.Pairwise Respects ∧ JoinEvent.regressed ∉ (t.run ctx deliveries).sent := by
  obtain ⟨h, rfl⟩ := JoinTask.Collected.start (G := fun _ _ => True) hstart
  exact (JoinTask.run_ensures (I := fun log s => s.Timely log) (fun _ _ h => h.orderly)
    (fun _ _ _ he h => h.boundary he)
    (fun _ _ _ _ _ _ h => h.item) (fun _ _ _ _ => ⟨fun _ _ => trivial, fun _ _ _ _ _ => trivial⟩)
    (hprepared.timely hnew) h).1

/-- The sample sends a pair, its first watermark, the left row without partner, and the last watermark. -/
theorem watermarks_sound_sample : ∃ t, JoinTask.start (.fresh sampleJoin.setDurable) 0 0 = .ok t ∧
      ((t.run sampleJob sampleRounds).sent.Pairwise Respects ∧
        JoinEvent.regressed ∉ (t.run sampleJob sampleRounds).sent) ∧
      timeline (t.run sampleJob sampleRounds).sent = [none, some (some 20), none, some (some i64Max)] := by
  have hn : BoundedJoin.new sampleJoinSpec sampleJoinSchema sampleJoinSchema 64 64 = .ok sampleJoin := Result.eq_value _
  have hs : JoinTask.start (.fresh sampleJoin.setDurable) 0 0 =
      .ok (JoinTask.startOf (.fresh sampleJoin.setDurable) 0 0) := rfl
  exact ⟨_, hs, watermarks_sound hn .fresh hs _ _, by decide⟩

end Sparrow.Runtime
