import Sparrow.Runtime.BufferedFinality
import Sparrow.Runtime.BufferedLedger

/-!
# Session windows

The declarative meaning of a session window is the greedy segmentation of the events of
a key, in time order and, at one time, in order of arrival. The operator sees the events
in any order the watermark allows, and closes and forgets the first segment as soon as
it is due.

What makes the two agree is that a closed segment stops at or below the floor: nothing
that arrives later comes before the stop, so that the segments closed so far are those of
the arrivals up to a cut and the rest is segmented on its own.
-/

namespace Sparrow.Runtime

open Library Model Plan Sessions Function List Numbered

variable {f : EventEntry} {rest : List EventEntry} {g : Group}

namespace BufferedWindow

def ofKey (arrived : List Numbered) (k : Bytes) : List Numbered :=
  byTime time (arrived.filter fun p => p.1.key = k)

def keptUpto (arrived : List Numbered) (k : Bytes) (cut : ℤ) : List Numbered :=
  byTime time (arrived.filter fun p => p.1.key = k ∧ p.time ≤ cut)

/-- The result rows for a key; `n` is the number of key columns. -/
def resultsFor (n : ℕ) (k : Bytes) (rows : List Row) : List Row :=
  rows.filter fun row => encodeKeyValues (row.values.take n) = k

/-- `row` is the final of a segment of the arrivals of `k`. -/
def IsSegment (w : BufferedWindow) (k : Bytes) (s : Segment Numbered) (row : Row) : Prop :=
  w.IsResult k s.start s.stop (s.items.map (·.1.values)) row

/-! ### Cutting the arrivals -/

section Cuts

variable {arrived : List Numbered} {k : Bytes} {cut cut' : ℤ}

theorem keptUpto_append (arrived : List Numbered) (k : Bytes) (cut : ℤ) :
    keptUpto arrived k cut ++ keptAfter arrived k cut = ofKey arrived k := by
  have h := filter_append_filter time (pairwise_byTime time
    (arrived.filter fun p => p.1.key = k)) cut
  rw [filter_byTime, filter_byTime, filter_filter, filter_filter] at h
  rw [ofKey, ← h, keptUpto, keptAfter]
  congr 2 <;> refine filter_congr fun p _ => ?_ <;> simp [Bool.and_comm]

theorem keptAfter_raise (h : cut ≤ cut') :
    keptAfter arrived k cut' = (keptAfter arrived k cut).filter fun p => cut' < p.time := by
  rw [keptAfter, keptAfter, filter_byTime, filter_filter]
  congr 1
  refine filter_congr fun p _ => ?_
  by_cases hp : cut' < p.time
  · simp [hp, h.trans_lt hp]
  · simp [hp]

theorem keptUpto_raise (h : cut ≤ cut') :
    keptUpto arrived k cut' = keptUpto arrived k cut ++ (keptAfter arrived k cut).filter fun p => p.time ≤ cut' := by
  have hs := filter_append_filter time (pairwise_byTime time
    (arrived.filter fun p => p.1.key = k ∧ p.time ≤ cut')) cut
  rw [filter_byTime, filter_byTime, filter_filter, filter_filter] at hs
  rw [keptUpto, ← hs, keptUpto, keptAfter, filter_byTime, filter_filter]
  congr 2 <;> refine filter_congr fun p _ => ?_
  · by_cases hp : p.time ≤ cut
    · simp [hp, hp.trans h]
    · simp [hp]
  · by_cases hp : cut < p.time <;> by_cases hp' : p.time ≤ cut' <;> simp [hp, hp']

theorem keptUpto_concat {p : Numbered} (h : cut < p.time) :
    keptUpto (arrived ++ [p]) k cut = keptUpto arrived k cut := by
  simp [keptUpto, filter_append, not_le.mpr h]

end Cuts

/-! ### Rows of a key -/

theorem resultsFor_append (n : ℕ) (k : Bytes) (as bs : List Row) :
    resultsFor n k (as ++ bs) = resultsFor n k as ++ resultsFor n k bs := by
  simp [resultsFor]

variable {w : BufferedWindow} {k : Bytes} {row : Row}

theorem IsResult.resultsFor {start stop : ℤ}
    {inputs : List (List Scalar)} (h : w.IsResult k start stop inputs row) (k' : Bytes) :
    resultsFor w.keys.length k' [row] = if k' = k then [row] else [] := by
  have hke : encodeKeyValues (row.values.take w.keys.length) = k := by
    have hf := h.1
    unfold finalOf at hf
    split at hf
    · simp only [Option.some.injEq, Prod.mk.injEq] at hf
      exact hf.1
    · simp at hf
  by_cases hk : k' = k
  · simp [BufferedWindow.resultsFor, hke, hk]
  · simp [BufferedWindow.resultsFor, hke, hk, Ne.symm hk]

/-! ### The first segment of what is retained -/

theorem first_of_view {kept : List Numbered} {pending : ℕ → Bool}
    (h : (f :: rest).map view = kept.map (entered pending)) (gap span : ℤ) :
    ∃ p later, kept = p :: later ∧ p.time = timeOf f ∧
      (first time gap span p later).2.1 = (first timeOf gap span f rest).2.1 ∧
      (p :: (first time gap span p later).1).map (entered pending) =
        (f :: (first timeOf gap span f rest).1).map view ∧
      (first time gap span p later).2.2.map (entered pending) =
        (first timeOf gap span f rest).2.2.map view := by
  obtain ⟨p, later, rfl, hp, hl⟩ := List.map_eq_cons_iff.mp h.symm
  have hti : p.time = timeOf f := congrArg Prod.fst hp
  have ha : first Prod.fst gap span (entered pending p) (later.map (entered pending)) =
      ((first time gap span p later).1.map (entered pending), (first time gap span p later).2.1,
        (first time gap span p later).2.2.map (entered pending)) :=
    first_map (fun _ => rfl) p later
  have hr : first Prod.fst gap span (view f) (rest.map view) =
      ((first timeOf gap span f rest).1.map view, (first timeOf gap span f rest).2.1,
        (first timeOf gap span f rest).2.2.map view) := first_map (fun _ => rfl) f rest
  rw [hp, hl, hr] at ha
  simp only [Prod.mk.injEq] at ha
  obtain ⟨ht, hs, hle⟩ := ha
  refine ⟨p, later, rfl, hti, hs.symm, ?_, hle.symm⟩
  rw [map_cons, map_cons, hp, ht]

theorem inputsBetween_session (hc : w.spec.kind.isCount = false) {gap span : ℤ}
    (hg : 0 < gap) (hsp : 0 < span) (hen : g.events.entries = f :: rest) :
    w.inputsBetween g (timeOf f) (first timeOf gap span f rest).2.1 =
      (f :: (first timeOf gap span f rest).1).map (·.2.values) := by
  have hs := g.times_sorted
  rw [hen] at hs
  rw [inputsBetween_eq hc, hen, ← (first_split hs hg hsp).1]
  refine congrArg (List.map _) (filter_congr fun e he => ?_)
  have hle : timeOf f ≤ timeOf e := by
    rcases List.mem_cons.mp he with rfl | he
    · exact le_rfl
    · exact (List.pairwise_cons.mp hs).1 e he
  simp [hle, Int.le_sub_one_iff]

/-! ### The invariant -/

open Executor

/-- What a run of a session window keeps. -/
structure SegmentInv (w₀ : BufferedWindow) (gap span F : ℤ) (seen : List Seen) (w : BufferedWindow)
    (cut : Bytes → ℤ) : Prop where
  retains : Retains (arrivals seen) cut (fun _ => true) w
  finals : ∀ k, List.Forall₂ (IsSegment w₀ k) (segments time gap span
    (keptUpto (arrivals seen) k (cut k))) (resultsFor w₀.keys.length k (results seen))
  stops : ∀ k, ∀ s ∈ segments time gap span (keptUpto (arrivals seen) k (cut k)), s.stop ≤ cut k + 1
  cut_lt : ∀ k, cut k < F

namespace SegmentInv

variable {w₀ w : BufferedWindow} {gap span : Int64} {F : ℤ} {seen : List Seen} {cut : Bytes → ℤ}

section

variable (hw : SegmentInv w₀ gap span F seen w cut) (hkind : w₀.spec.kind.IsSession gap span)
  (hsane : w.Sane w₀.toBufferedConfig)

include hw hkind hsane

variable {grants : Grants} {deadline time : ℤ} {key : Bytes}

theorem emit (hg : w.groups.get? key = some g)
    (hd : g.deadline = some deadline) (he : g.events.entries = f :: rest)
    (hF : (first timeOf gap span f rest).2.1 ≤ F) {b : RowBatch}
    (hag : w.aggregate grants g (timeOf f) (first timeOf gap span f rest).2.1 (timeOf f)
      (first timeOf gap span f rest).2.1 = .ok b) :
    ∃ cut', SegmentInv w₀ gap span F (seen ++ [b].map .rows) (w.settle key g deadline time
      (some (toLex ((first timeOf gap span f rest).2.1, 0)))) cut' := by
  have hspe := hsane.kind_eq
  obtain ⟨hga, hsp⟩ := WindowSpec.valid_session hsane.wf.valid (hspe ▸ hkind)
  have hke := hw.retains key
  rw [eventsOf_eq hg, he] at hke
  obtain ⟨p, later, hl, hti, hst, hit, hlef⟩ := first_of_view hke gap span
  have hso := pairwise_byTime Numbered.time
    ((arrivals seen).filter fun p => p.1.key = key ∧ cut key < p.time)
  rw [show byTime _ _ = _ from hl] at hso
  obtain ⟨ht, hre⟩ := first_split hso hga hsp
  rw [hst] at ht hre
  set stop := (first timeOf gap span f rest).2.1
  have hgt : timeOf f < stop := Group.session_stop_gt hga hsp he
  have hcu : cut key < timeOf f := by
    have hp : p ∈ keptAfter (arrivals seen) key (cut key) := by rw [hl]; exact mem_cons_self
    rw [← hti]
    exact (mem_keptAfter.mp hp).2.2
  have hra : cut key ≤ stop - 1 := by omega
  have ha : arrivals (seen ++ [b].map .rows) = arrivals seen := arrivals_append_of_none (accepted_rows [b])
  -- the arrivals closed are those closed before, and the segment
  have hc : keptUpto (arrivals seen) key (stop - 1) = keptUpto (arrivals seen) key (cut key) ++
      p :: (first Numbered.time gap span p later).1 := by
    rw [keptUpto_raise hra, hl, ht]
  have hse : segments Numbered.time gap span (keptUpto (arrivals seen) key (stop - 1)) =
      segments Numbered.time gap span (keptUpto (arrivals seen) key (cut key)) ++
        [{ start := p.time, stop := stop, items := p :: (first Numbered.time gap span p later).1 }] := by
    rw [hc, segments_append, segments_first, hst]
    intro s hs q hq
    have hm : q ∈ keptAfter (arrivals seen) key (cut key) := by
      rw [← ht, ← hl] at hq
      exact mem_of_mem_filter hq
    have := (mem_keptAfter.mp hm).2.2
    have := hw.stops key s hs
    omega
  obtain ⟨row, hro, hr⟩ : ∃ row, b.rows = [row] ∧ IsSegment w₀ key
      { start := p.time, stop := stop, items := p :: (first Numbered.time gap span p later).1 } row := by
    obtain ⟨h0, hf⟩ := hsane.ranged.fits key g hg f (by rw [he]; exact mem_cons_self)
    have hle := Group.session_stop_le gap span f rest
    have hma : timeOf f + max (gap : ℤ) span ≤ i64Max := by
      rcases hkind with h | h <;> simp only [endpointsFit, hspe, h, fitsI64_iff] at hf <;> exact hf.2
    obtain ⟨row, hro, hr⟩ := isResult_of_aggregate hsane.config (hsane.wf.encoded key g hg)
      (hsane.wf.width key g hg) (by rw [fitsI64_iff]; unfold i64Min; omega)
      (by rw [fitsI64_iff]; unfold i64Min; omega) hag
    refine ⟨row, hro, ?_⟩
    have hi : w.inputsBetween g (timeOf f) stop =
        (p :: (first Numbered.time gap span p later).1).map (·.1.values) := by
      have hv := congrArg (List.map fun v : ℤ × List Scalar × Bool => v.2.1) hit
      rw [map_map, map_map] at hv
      exact (inputsBetween_session hsane.timed hga hsp he).trans hv.symm
    rw [IsSegment, hti, ← hi]
    exact hr
  refine ⟨update cut key (stop - 1), ?_, fun k => ?_, fun k s hs => ?_, fun k => ?_⟩
  · rw [ha]
    refine hw.retains.settle hsane hg hd time _ ?_ fun _ _ _ => rfl
    rw [Group.settled_session hga hsp he (hspe ▸ hkind) time 0, ← hlef, keptAfter_raise hra, hl, hre]
  · rw [ha, results_append, results_rows]
    simp only [flatMap_cons, flatMap_nil, append_nil, hro]
    rw [resultsFor_append, hr.resultsFor]
    obtain rfl | hk := eq_or_ne k key
    · rw [update_self, hse, if_pos rfl]
      exact rel_append (hw.finals k) (.cons hr .nil)
    · rw [update_of_ne hk, if_neg hk, append_nil]
      exact hw.finals k
  · rw [ha] at hs
    obtain rfl | hk := eq_or_ne k key
    · rw [update_self, hse, mem_append] at hs
      rw [update_self]
      rcases hs with hs | hs
      · have := hw.stops k s hs
        omega
      · rw [List.mem_singleton.mp hs]
        show stop ≤ stop - 1 + 1
        omega
    · rw [update_of_ne hk] at hs ⊢
      exact hw.stops k s hs
  · exact (forall_update_iff cut (p := fun _ c => c < F)).mpr ⟨by omega, fun k _ => hw.cut_lt k⟩ k

theorem take (hF : time ≤ F) (hdu : deadline ≤ time)
    (hg : w.groups.get? key = some g) (hd : g.deadline = some deadline) {out : Option RowBatch}
    (ho : w.Emits grants g time out) :
    ∃ cut', SegmentInv w₀ gap span F (seen ++ out.toList.map .rows)
      (w.settle key g deadline time ((g.dueAt time w.spec.kind).map (·.2.2))) cut' := by
  have hs := hsane.kind_eq
  obtain ⟨hga, hsp⟩ := WindowSpec.valid_session hsane.wf.valid (hs ▸ hkind)
  obtain ⟨f, rest, he⟩ := exists_cons_of_ne_nil (hsane.wf.nonempty key g hg)
  have hse := Group.session_eq hga hsp he
  obtain ⟨hat, hn⟩ : g.dueAt time w.spec.kind = some (timeOf f, (first timeOf gap span f rest).2.1,
      toLex ((first timeOf gap span f rest).2.1, 0)) ∧
      g.nextDeadline w.spec.kind = some (first timeOf gap span f rest).2.1 := by
    rcases hkind with h | h <;> simp [hs, h, Group.dueAt, Group.nextDeadline, hse]
  -- the deadline is the stop of the session
  have hst : deadline = (first timeOf gap span f rest).2.1 := by
    have := hsane.wf.deadline key g hg
    rw [hd, hn] at this
    exact Option.some.inj this
  rcases ho with ⟨hno, -⟩ | ⟨start, stop, consumed, b, hso, rfl, ha⟩
  · simp [hat] at hno
  · obtain ⟨rfl, rfl, rfl⟩ : timeOf f = start ∧ (first timeOf gap span f rest).2.1 = stop ∧
        toLex ((first timeOf gap span f rest).2.1, 0) = consumed := by
      simpa [hat] using hso
    rw [hat]
    exact hw.emit hkind hsane hg hd he (by omega) ha

theorem push {timestamp : ℤ} {adm : Admission} (hF : F ≤ timestamp) (had : w.Admits row timestamp adm) :
    SegmentInv w₀ gap span F (seen ++ [.accepted
      ⟨w.rowKey row, timestamp, adm.event.values⟩])
      (w.retained adm timestamp) cut := by
  have hs := hsane.kind_eq
  set a : Arrival := ⟨w.rowKey row, timestamp, adm.event.values⟩
  have har : arrivals (seen ++ [.accepted a]) = arrivals seen ++ [(a, (accepted seen).length)] :=
    arrivals_concat seen a []
  have hr : results (seen ++ [.accepted a]) = results seen := by simpa using results_accepted seen a []
  have hl : ∀ k, cut k < time (a, (accepted seen).length) := fun k =>
    (hw.cut_lt k).trans_le hF
  refine ⟨?_, fun k => ?_, fun k => ?_, hw.cut_lt⟩
  · rw [har]
    refine hw.retains.push hsane had ((hw.cut_lt _).trans_le hF) (fun _ _ => rfl) ?_
    rcases hkind with h | h <;> rw [hs, h] <;> rfl
  · rw [har, hr, keptUpto_concat (hl k)]
    exact hw.finals k
  · rw [har, keptUpto_concat (hl k)]
    exact hw.stops k

end

end SegmentInv

variable {w₀ : BufferedWindow} {span gap : Int64}

/-- **The invariant is carried through every run.** -/
theorem segmentInv_carried
    (hkind : w₀.spec.kind.IsSession gap span) : Carried w₀.toBufferedConfig fun F seen w =>
      ∃ cut, SegmentInv w₀ gap span F seen w cut where
  mono := by
    rintro F F' seen w hle ⟨cut, hw⟩
    exact ⟨cut, { hw with cut_lt := fun k => (hw.cut_lt k).trans_le hle }⟩
  frame := by
    rintro F seen w n hub ⟨cut, hw⟩
    exact ⟨cut, { hw with retains := hw.retains }⟩
  note := by
    rintro F seen w s hac hro ⟨cut, hw⟩
    have ha := arrivals_note seen hac
    have hr := results_note seen hro
    exact ⟨cut, by rw [ha]; exact hw.retains, by rw [ha, hr]; exact hw.finals,
      by rw [ha]; exact hw.stops, hw.cut_lt⟩
  take := by
    rintro F seen w key g deadline time grants out hsane ⟨cut, hw⟩ hF hdu hg hd ho
    exact hw.take hkind hsane hF hdu hg hd ho
  push := by
    rintro F seen w row timestamp adm grants out hsane ⟨cut, hw⟩ hF - had hi
    have hn : (w.insertEvent adm timestamp).immediate timestamp adm.sequence = none := by
      obtain ⟨_, _, _, _, hf⟩ := w.insertEvent_frame adm timestamp
      have hs := hsane.kind_eq
      rw [hf]
      rcases hkind with h | h <;> simp [immediate, hs, h]
    obtain rfl : none = out := by simpa [immediateRow, hn] using hi
    exact ⟨cut, hw.push hkind hsane hF had⟩

variable {spec : WindowSpec} {external : Bool}

theorem Created.segmentInv (hw : Created spec external w) (gap span : ℤ) :
    SegmentInv w gap span w.floor [] w (fun _ => -1) := by
  refine ⟨fun k => ?_, fun k => ?_, fun k s hs => ?_, fun _ => ?_⟩
  · simp [eventsOf, hw.groups, keptAfter, arrivals, accepted]
  · simp [keptUpto, arrivals, accepted, resultsFor, results, segments]
  · simp [keptUpto, arrivals, accepted, segments] at hs
  · have := hw.floor_nonneg
    omega

variable {seen : List Seen}

theorem finals_of_run (hc : Created spec external w₀) (hkind : spec.kind.IsSession gap span)
    {inputs : List Input} (hs : ∀ i ∈ inputs, i.Steady) {grants : ℕ → Grants} {wake : ℤ → ℤ}
    (hwa : ∀ d, d ≤ wake d) {x : Executor}
    (hr : Executor.run { op := w₀, last := none } inputs grants wake = .ok (seen, x)) (k : Bytes) :
    List.Forall₂ (IsSegment w₀ k) (segments time gap span (ofKey (arrivals seen) k))
      (resultsFor w₀.keys.length k (results seen)) := by
  have hk' : w₀.spec.kind.IsSession gap span := by rw [hc.spec_eq]; exact hkind
  obtain ⟨-, ⟨F, cut, hi⟩, he⟩ := (segmentInv_carried hk').run
    (x := { op := w₀, last := none }) (hc.sane (.inr ⟨gap, span, hkind⟩))
    ⟨_, hc.segmentInv gap span⟩ hs hwa hr
  -- nothing is retained, so everything is closed
  have hn : x.op.groups.get? k = none := SortedMap.get?_eq_none_iff.mpr fun v hv => by simp [he] at hv
  have hk : keptAfter (arrivals seen) k (cut k) = [] := by
    have := hi.retains k
    rw [eventsOf, hn] at this
    exact List.map_eq_nil_iff.mp this.symm
  have ha := keptUpto_append (arrivals seen) k (cut k)
  rw [hk, append_nil] at ha
  rw [← ha]
  exact hi.finals k

theorem map_finalOf {segs : List (Segment Numbered)} {rows : List Row}
    (h : List.Forall₂ (IsSegment w k) segs rows) :
    rows.map (finalOf w.keys.length) = segs.map fun s => some (k, s.start, s.stop) := by
  induction h with
  | nil => rfl
  | cons hr _ ih => rw [map_cons, map_cons, hr.1, ih]

theorem map_time_ofKey {seen' : List Seen}
    (h : (((accepted seen).filter fun a => a.key = k).map Arrival.time).Perm
      (((accepted seen').filter fun a => a.key = k).map Arrival.time)) :
    (ofKey (arrivals seen) k).map time = (ofKey (arrivals seen') k).map time := by
  have ht : ∀ seen, ((arrivals seen).filter fun p => p.1.key = k).map time =
      ((accepted seen).filter fun a => a.key = k).map Arrival.time := by
    intro seen
    have hf : (arrivals seen).map Prod.fst = accepted seen := by simp [arrivals]
    rw [← hf, filter_map, map_map]
    rfl
  refine map_byTime_eq_of_perm ?_
  rw [ht, ht]
  exact h

/-- **Session windows.** In a run without idle controls and errors, the finals emitted for a
key are the greedy segments of the events accepted for it, in time order; every one of these
events is in exactly one of them; and another run in which the key has the same times emits
the same bounds for it, in the same order. -/
theorem session_segments {spec : WindowSpec} {input : Schema}
    {budgetKeys budgetTimers maxKeys maxTimers : ℕ} {external : Bool} {w₀ : BufferedWindow}
    (hnew : BufferedWindow.new spec input budgetKeys budgetTimers maxKeys maxTimers external = .ok w₀)
    {gap span : Int64} (hkind : spec.kind.IsSession gap span) {inputs : List Input}
    (hsteady : ∀ i ∈ inputs, i.Steady) {grants : ℕ → Grants} {wake : ℤ → ℤ} (hwake : ∀ d, d ≤ wake d)
    {seen : List Seen} {x : Executor}
    (hrun : Executor.run { op := w₀, last := none } inputs grants wake = .ok (seen, x)) (k : Bytes) :
    List.Forall₂ (IsSegment w₀ k) (segments time gap span (ofKey (arrivals seen) k))
      (resultsFor w₀.keys.length k (results seen)) ∧
    ((segments time gap span (ofKey (arrivals seen) k)).map Segment.items).flatten.Perm
      ((arrivals seen).filter fun p => p.1.key = k) ∧
    ∀ inputs' grants' wake' seen' x', (∀ i ∈ inputs', i.Steady) → (∀ d, d ≤ wake' d) →
      Executor.run { op := w₀, last := none } inputs' grants' wake' = .ok (seen', x') →
      (((accepted seen).filter fun a => a.key = k).map Arrival.time).Perm
        (((accepted seen').filter fun a => a.key = k).map Arrival.time) →
      (resultsFor w₀.keys.length k (results seen)).map (finalOf w₀.keys.length) =
        (resultsFor w₀.keys.length k (results seen')).map (finalOf w₀.keys.length) := by
  obtain ⟨hc, -⟩ := new_eq_ok hnew
  have hf := finals_of_run hc hkind hsteady hwake hrun k
  refine ⟨hf, ?_, ?_⟩
  · rw [flatten_segments]
    exact perm_byTime _ _
  · intro inputs' grants' wake' seen' x' hs' hw' hr' hp
    have hf' := finals_of_run hc hkind hs' hw' hr' k
    have hb : (segments time gap span (ofKey (arrivals seen) k)).map
        (fun s => (s.start, s.stop)) =
        (segments time gap span (ofKey (arrivals seen') k)).map fun s => (s.start, s.stop) := by
      rw [bounds_segments, map_time_ofKey hp, ← bounds_segments]
    rw [map_finalOf hf, map_finalOf hf']
    have := congrArg (List.map fun b : ℤ × ℤ => some (k, b.1, b.2)) hb
    rwa [map_map, map_map] at this

/-- Events at `100`, `106` and `200`; the first two are one session, closed at the third. -/
def sampleSessionInputs : List Input := [100, 106, 200].map fun t => .row .all (fun _ => .all) (sampleRow t) 1000

/-- The run of `sampleSessionInputs` to its end. -/
def sampleSessionRun : List Seen × Executor :=
  Result.value (Executor.run { op := sampleWindow, last := none } sampleSessionInputs (fun _ => .all) id)
    (by decide)

theorem session_segments_sample : (accepted sampleSessionRun.1).map Arrival.time = [100, 106, 200] ∧
    (resultsFor 1 (encodeKeyValues [.int64 1]) (results sampleSessionRun.1)).map (finalOf 1) =
      [some (encodeKeyValues [.int64 1], 100, 116), some (encodeKeyValues [.int64 1], 200, 210)] ∧
    List.Forall₂ (IsSegment sampleWindow (encodeKeyValues [.int64 1]))
      (segments time 10 100 (ofKey (arrivals sampleSessionRun.1) (encodeKeyValues [.int64 1])))
      (resultsFor sampleWindow.keys.length (encodeKeyValues [.int64 1]) (results sampleSessionRun.1)) := by
  have hn : BufferedWindow.new sampleSessions sampleSchema 100 100 100 100 false =
      .ok sampleWindow := Result.eq_value _
  have hr : Executor.run { op := sampleWindow, last := none } sampleSessionInputs (fun _ => .all) id =
      .ok (sampleSessionRun.1, sampleSessionRun.2) := Result.eq_value (by decide)
  have hs : ∀ i ∈ sampleSessionInputs, i.Steady := by
    intro i hi
    obtain ⟨t, -, rfl⟩ := List.mem_map.mp hi
    trivial
  exact ⟨by decide, by decide, (session_segments hn (.inl rfl) hs (fun d => le_refl d) hr _).1⟩

end BufferedWindow

end Sparrow.Runtime
