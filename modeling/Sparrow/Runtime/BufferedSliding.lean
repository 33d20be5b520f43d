import Mathlib.Data.Int.SuccPred
import Sparrow.Runtime.BufferedFinality
import Sparrow.Runtime.BufferedLedger

/-!
# Sliding windows of time

The declarative meaning of a sliding window is one row per event: for an event at `T`,
the aggregates over the events of its key with times in `[T - size + 1, T + delay]`, in
time order and, at one time, in order of arrival. A processing-time window without
delay emits the row at once, so that only what has arrived by then counts.

The operator keeps history only as far back as some pending or future event may need.
-/

namespace Sparrow.Runtime

open Library Model Plan Function List Numbered WindowSpec

variable {key : Bytes} {grants : Grants} {arrived : List Numbered} {p : Numbered} {row : Row} {deadline : ℤ}

namespace BufferedWindow

/-- `q` is in the window of `p`; with `upto`, only if it came no later. -/
def inWindow (size delay : ℤ) (upto : Bool) (p q : Numbered) : Bool :=
  q.1.key = p.1.key ∧ p.time - size + 1 ≤ q.time ∧ q.time ≤ p.time + delay ∧ (upto → q.2 ≤ p.2)

/-- The window of `p`, in time order. -/
def windowOf (size delay : ℤ) (upto : Bool) (arrived : List Numbered) (p : Numbered) : List Numbered :=
  byTime time (arrived.filter (inWindow size delay upto p))

/-- `row` is the result of the window of `p`. -/
def IsWindow (w : BufferedWindow) (size delay : ℤ) (arrived : List Numbered) (p : Numbered) (row : Row) : Prop :=
  w.IsResult p.1.key (p.time - size + 1) (p.time + delay + 1)
    ((windowOf size delay (isPrompt w.spec.kind) arrived p).map (·.1.values)) row

variable {w : BufferedWindow} {q : Numbered}

theorem IsWindow.later {size delay : ℤ} (h : IsWindow w size delay arrived p row)
    (ho : inWindow size delay (isPrompt w.spec.kind) p q = false) :
    IsWindow w size delay (arrived ++ [q]) p row := by
  unfold IsWindow windowOf at h ⊢
  rwa [filter_append, filter_cons_of_neg (by simp [ho]), filter_nil, append_nil]

/-! ### Eviction -/

section Eviction

variable {g : Group} {kind : WindowKind} {size delay : Int64} {time : ℤ}

theorem cutoff_le (hsize : 0 < (size : ℤ)) (htime : 0 ≤ time) (h0 : ∀ e ∈ g.events.entries, 0 ≤ timeOf e) :
    g.cutoff time size + size ≤ time ∧
      ∀ e ∈ g.events.entries, e.2.pending = true → g.cutoff time size + size ≤ timeOf e := by
  have hm := toInt_le_i64Max size
  cases hfi : g.firstPending with
  | none =>
    have hn := List.find?_eq_none.mp hfi
    simp only [Group.cutoff, hfi, Option.map_none, Option.getD_none, satSubI, clampI64]
    refine ⟨by unfold i64Min i64Max at *; omega, fun e he hp => absurd hp (hn e he)⟩
  | some f =>
    have hf := mem_of_find?_eq_some hfi
    have hf0 := h0 f hf
    -- events before the first pending one are not pending
    have hle : ∀ e ∈ g.events.entries, e.2.pending = true → timeOf f ≤ timeOf e := by
      intro e he hp
      obtain ⟨-, pre, post, heq, hpr⟩ := List.find?_eq_some_iff_append.mp hfi
      have hs := g.times_sorted
      rw [heq] at he hs
      rcases List.mem_append.mp he with he | he
      · exact absurd hp (by simpa using hpr e he)
      · rcases List.mem_cons.mp he with rfl | he
        · exact le_rfl
        · exact (List.pairwise_cons.mp (List.pairwise_append.mp hs).2.1).1 e he
    simp only [Group.cutoff, hfi, Option.map_some, Option.getD_some, satSubI, clampI64]
    refine ⟨by unfold i64Min i64Max at *; omega, fun e he hp => ?_⟩
    have := hle e he hp
    unfold i64Min i64Max at *
    omega

section

variable (hkind : kind.Slides size delay) (hsize : 0 < (size : ℤ)) (htime : 0 ≤ time) (consumed : Option (ℤ ×ₗ ℕ))
  (h0 : ∀ e ∈ g.events.entries, 0 ≤ timeOf e)

include hkind hsize htime consumed h0

/-- **Eviction pops exactly what is not above the cutoff.** -/
theorem entries_settled_sliding : (g.settled time consumed kind).events.entries =
      (g.fired consumed kind).events.entries.filter fun e =>
        (g.fired consumed kind).cutoff time size < timeOf e := by
  obtain ⟨-, hpe⟩ := cutoff_le (g := g.fired consumed kind) hsize htime fun e he => by
    obtain ⟨e', he', heq⟩ := mem_fired he
    rw [timeOf, heq]
    exact h0 e' he'
  have hs : ∀ e, Group.spent { g.fired consumed kind with deadline := none } time consumed kind e =
      (decide (timeOf e ≤ (g.fired consumed kind).cutoff time size) && !e.2.pending) := by
    intro e
    rcases hkind with rfl | rfl <;> simp [Group.spent] <;> rfl
  -- what is not above the cutoff is not pending, so the front popped is all of it
  have hs' : ∀ e ∈ (g.fired consumed kind).events.entries,
      Group.spent { g.fired consumed kind with deadline := none } time consumed kind e =
        decide (timeOf e ≤ (g.fired consumed kind).cutoff time size) := by
    intro e he
    rw [hs]
    by_cases hle : timeOf e ≤ (g.fired consumed kind).cutoff time size
    · have hn : e.2.pending = false := by
        by_contra hp
        have := hpe e he (by simpa using hp)
        omega
      simp [hle, hn]
    · simp [hle]
  simp only [Group.settled, SortedMap.entries_popWhile]
  rw [SortedMap.dropWhile_eq_filter (g.fired consumed kind).times_sorted]
  · refine filter_congr fun e he => ?_
    rw [hs' e he]
    by_cases hle : timeOf e ≤ (g.fired consumed kind).cutoff time size
    · simp [hle]
    · simp [hle, not_le.mp hle]
  · intro a ha b hb hab hp
    rw [hs' b hb, decide_eq_true_eq] at hp
    rw [hs' a ha, decide_eq_true_eq]
    exact hab.trans hp

theorem view_settled_sliding {cut : ℤ} {pending : ℕ → Bool}
    (hv : (g.fired consumed kind).events.entries.map view = (keptAfter arrived key cut).map (entered pending)) :
    (g.settled time consumed kind).events.entries.map view =
      (keptAfter arrived key (max cut ((g.fired consumed kind).cutoff time size))).map
        (entered pending) := by
  set c := (g.fired consumed kind).cutoff time size with hc
  have hle : ((g.fired consumed kind).events.entries.filter fun e => c < timeOf e).map view =
      ((g.fired consumed kind).events.entries.map view).filter fun v => c < v.1 := by
    rw [filter_map]
    rfl
  have hr : ((keptAfter arrived key cut).map (entered pending)).filter (fun v => c < v.1) =
      ((keptAfter arrived key cut).filter fun p => c < p.time).map (entered pending) := by
    rw [filter_map]
    rfl
  rw [entries_settled_sliding hkind hsize htime consumed h0, ← hc, hle, hv, hr, keptAfter,
    filter_byTime, filter_filter, keptAfter]
  congr 2
  refine filter_congr fun p _ => ?_
  by_cases hk : p.1.key = key <;> by_cases hl : cut < p.time <;> by_cases hm : c < p.time <;>
    simp [hk, hl, hm]

end

end Eviction

/-! ### Results -/

variable {g : Group}

theorem isWindow_of_aggregate {w₀ : BufferedWindow} {size delay : Int64}
    (hc : w.toBufferedConfig = w₀.toBufferedConfig) (hkind : w.spec.kind.Slides size delay)
    (hu : isPrompt w₀.spec.kind = true → ∀ q ∈ arrived, q.2 ≤ p.2) (cut : ℤ)
    (hk : encodeKeyValues g.key.values = p.1.key) (hwi : g.key.values.length = w.keys.length)
    (hsize : 0 < (size : ℤ)) (h0 : 0 ≤ p.time) (hf : w.endpointsFit p.time = true)
    (he : g.events.entries.map core = (keptAfter arrived p.1.key cut).map fun q => (q.time, q.1.values))
    (hcu : cut < p.time - size + 1) {out : RowBatch}
    (ha : w.aggregate grants g (p.time - size + 1) (p.time + delay + 1) (p.time - size + 1)
      (p.time + delay + 1) = .ok out) :
    ∃ row, out.rows = [row] ∧ IsWindow w₀ size delay arrived p row := by
  have hco : w.spec.kind.isCount = false := by rcases hkind with h | h <;> rw [h] <;> rfl
  obtain ⟨hst, hsto⟩ : fitsI64 (p.time - size + 1) = true ∧ fitsI64 (p.time + delay + 1) = true := by
    rcases hkind with h | h <;> simp only [endpointsFit, h, Bool.and_eq_true, fitsI64_iff] at hf ⊢ <;>
      unfold i64Min i64Max at * <;> omega
  obtain ⟨row, hro, hr⟩ := isResult_of_aggregate hc hk hwi hst hsto ha
  refine ⟨row, hro, ?_⟩
  have hv := congrArg (List.map Prod.snd) (filter_core (p.time + delay + 1) he hcu)
  rw [map_map, map_map] at hv
  rw [inputsBetween_eq hco] at hr
  replace hr := hv ▸ hr
  have hs : arrived.filter (inWindow size delay (isPrompt w₀.spec.kind) p) =
      arrived.filter fun q => q.1.key = p.1.key ∧ p.time - size + 1 ≤ q.time ∧ q.time < p.time + delay + 1 :=
    filter_congr fun q hq => ?_
  · rw [IsWindow, windowOf, hs]
    exact hr
  unfold inWindow
  by_cases hp : isPrompt w₀.spec.kind = true
  · simp [hp, hu hp q hq]
  · simp [hp]

/-! ### Firing -/

variable {e : EventEntry}

theorem exists_of_view {entries : List EventEntry} {kept : List Numbered} {pending : ℕ → Bool}
    (hm : entries.map view = kept.map (entered pending)) (hp : p ∈ kept) :
    ∃ e ∈ entries, timeOf e = p.time ∧ e.2.pending = pending p.2 := by
  have hv := mem_map_of_mem (f := entered pending) hp
  rw [← hm] at hv
  obtain ⟨e, he, heq⟩ := List.mem_map.mp hv
  obtain ⟨htime, -, hpe⟩ : timeOf e = p.time ∧ _ ∧ e.2.pending = _ := by
    simpa only [view, entered, Prod.mk.injEq] using heq
  exact ⟨e, he, htime, hpe⟩

/-- The first pending event of a group is the first arrival kept whose row is to come; marking
it as emitted is marking that arrival. -/
theorem fire_split {entries : List EventEntry} {kept : List Numbered} {pending : ℕ → Bool}
    (hm : entries.map view = kept.map (entered pending))
    (hs : entries.Pairwise fun a b => a.1 < b.1) (hn : (kept.map Prod.snd).Nodup)
    (he : entries.find? (fun e => e.2.pending) = some e) :
    ∃ p ∈ kept, p.time = timeOf e ∧ pending p.2 = true ∧
      (entries.map fun x => if x.1 = e.1 then (x.1, { x.2 with pending := false }) else x).map view =
        kept.map (entered fun i => pending i && decide (i ≠ p.2)) := by
  obtain ⟨hp, pre, post, rfl, -⟩ := List.find?_eq_some_iff_append.mp he
  rw [map_append, map_cons] at hm
  obtain ⟨preA, restA, rfl, hpr, hre⟩ := List.map_eq_append_iff.mp hm.symm
  obtain ⟨p, postA, rfl, hpA, hpos⟩ := List.map_eq_cons_iff.mp hre
  obtain ⟨htime, hv, hpe⟩ : p.time = timeOf e ∧ p.1.values = e.2.values ∧ pending p.2 = e.2.pending := by
    simpa [entered, view] using hpA
  obtain ⟨-, hs', hc⟩ := List.pairwise_append.mp hs
  obtain ⟨hpo, -⟩ := List.pairwise_cons.mp hs'
  rw [map_append, nodup_append] at hn
  obtain ⟨-, hn', hdi⟩ := hn
  rw [map_cons, nodup_cons] at hn'
  refine ⟨p, by simp, htime, hpe.trans hp, ?_⟩
  -- the other entries and the other arrivals are left alone
  have hle : ∀ l : List EventEntry, (∀ x ∈ l, x.1 ≠ e.1) →
      l.map (fun x => if x.1 = e.1 then (x.1, { x.2 with pending := false }) else x) = l := by
    intro l hl
    exact (map_congr_left fun x hx => if_neg (hl x hx)).trans (map_id _)
  have hr : ∀ l : List Numbered, (∀ q ∈ l, q.2 ≠ p.2) →
      l.map (entered fun i => pending i && decide (i ≠ p.2)) = l.map (entered pending) := by
    intro l hl
    refine map_congr_left fun q hq => ?_
    simp [entered, hl q hq]
  rw [map_append, map_cons, hle pre fun x hx => (hc x hx e mem_cons_self).ne,
    hle post fun x hx => (hpo x hx).ne', map_append, map_cons, map_append,
    map_cons, hr preA fun q hq heq => ?_, hr postA fun q hq heq => ?_, hpr, hpos]
  · simp [view, entered, htime, hv]
    rfl
  · exact hn'.1 (heq ▸ mem_map_of_mem hq)
  · exact hdi q.2 (mem_map_of_mem hq) p.2 (by simp) heq

/-! ### The invariant -/

open Executor in
/-- What a run of a sliding window keeps. `fired` are the arrivals whose rows have been
emitted, in the order of the rows. -/
structure SlidingInv (w₀ : BufferedWindow) (size delay : ℤ) (F : ℤ) (seen : List Seen)
    (w : BufferedWindow) (cut : Bytes → ℤ) (fired : List Numbered) : Prop where
  retains : Retains (arrivals seen) cut (fun i => decide (i ∉ fired.map Prod.snd)) w
  rows : List.Forall₂ (IsWindow w₀ size delay (arrivals seen)) fired (results seen)
  nodup : (fired.map Prod.snd).Nodup
  subset : ∀ p ∈ fired, p ∈ arrivals seen
  pending : ∀ p ∈ arrivals seen, p.2 ∉ fired.map Prod.snd → cut p.1.key + size ≤ p.time
  cut_le : ∀ k, cut k + size ≤ F
  closed : isPrompt w₀.spec.kind = false → ∀ p ∈ fired, p.time + delay < F
  prompt : isPrompt w₀.spec.kind = true → ∀ p ∈ arrivals seen, p.2 ∈ fired.map Prod.snd

namespace SlidingInv

open Executor

variable {w₀ w : BufferedWindow} {size delay : Int64} {F : ℤ} {seen : List Seen} {cut : Bytes → ℤ}
  {fired : List Numbered}

section

variable (hw : SlidingInv w₀ size delay F seen w cut fired)

include hw

theorem cut_le_update {c : ℤ} (hc : c + size ≤ F) : ∀ k, update cut key (max (cut key) c) k + size ≤ F := by
  have := hw.cut_le key
  exact (forall_update_iff cut (p := fun _ c => c + size ≤ F)).mpr ⟨by omega, fun k _ => hw.cut_le k⟩

theorem mem_pending (hsize : 0 < (size : ℤ)) (hp : p ∈ arrivals seen) (hn : p.2 ∉ fired.map Prod.snd) :
    ∃ e ∈ w.eventsOf p.1.key, timeOf e = p.time ∧ e.2.pending = true := by
  have hc := hw.pending p hp hn
  have hm : p ∈ keptAfter (arrivals seen) p.1.key (cut p.1.key) := mem_keptAfter.mpr ⟨hp, rfl, by omega⟩
  obtain ⟨e, he, htime, hpe⟩ := exists_of_view (hw.retains p.1.key) hm
  exact ⟨e, he, htime, hpe.trans (decide_eq_true hn)⟩

section

variable (hkind : w₀.spec.kind.Slides size delay) (hsane : w.Sane w₀.toBufferedConfig) {g : Group} {time : ℤ}
  (hF : time ≤ F) (htime : 0 ≤ time) (hg : w.groups.get? key = some g) (hd : g.deadline = some deadline)

include hkind hsane hF htime hg hd

theorem evict (hno : g.firstPending = none) :
    ∃ cut', SlidingInv w₀ size delay F seen (w.settle key g deadline time none) cut' fired := by
  have hs := hsane.kind_eq
  obtain ⟨hsize, -⟩ := valid_sliding hsane.wf.valid (hs ▸ hkind)
  have hf : g.fired none w.spec.kind = g := by
    rcases hkind with h | h <;> rw [hs, h] <;> rfl
  have h0 : ∀ e ∈ g.events.entries, 0 ≤ timeOf e := fun e he => (hsane.ranged.fits key g hg e he).1
  have hc := (cutoff_le (g := g) hsize htime h0).1
  have hke := hw.retains key
  rw [eventsOf_eq hg] at hke
  refine ⟨update cut key (max (cut key) (g.cutoff time size)), { hw with
      retains := hw.retains.settle hsane hg hd time none ?_ fun _ _ _ => rfl
      pending := fun p hp hn => ?_
      cut_le := fun k => ?_ }⟩
  · have hv := view_settled_sliding (hs ▸ hkind) hsize htime none h0 (hf.symm ▸ hke)
    rwa [hf] at hv
  · by_cases hk : p.1.key = key
    · -- nothing of this key is pending
      obtain ⟨e, he, -, hpe⟩ := hw.mem_pending hsize hp hn
      rw [hk, eventsOf_eq hg] at he
      exact absurd hpe (List.find?_eq_none.mp hno e he)
    · rw [update_of_ne hk]
      exact hw.pending p hp hn
  · exact hw.cut_le_update (by omega) k

theorem fire (hf : g.firstPending = some e) (hdu : timeOf e + delay + 1 ≤ time) {b : RowBatch}
    (hag : w.aggregate grants g (timeOf e - size + 1) (timeOf e + delay + 1) (timeOf e - size + 1)
      (timeOf e + delay + 1) = .ok b) :
    ∃ cut' fired', SlidingInv w₀ size delay F (seen ++ [b].map .rows)
      (w.settle key g deadline time (some e.1)) cut' fired' := by
  have hs := hsane.kind_eq
  obtain ⟨hsize, -⟩ := valid_sliding hsane.wf.valid (hs ▸ hkind)
  have h0 : ∀ e ∈ g.events.entries, 0 ≤ timeOf e := fun e he => (hsane.ranged.fits key g hg e he).1
  have hke := hw.retains key
  rw [eventsOf_eq hg] at hke
  have hno : ((keptAfter (arrivals seen) key (cut key)).map Prod.snd).Nodup := by
    have hper := (perm_byTime Numbered.time
      ((arrivals seen).filter fun p => p.1.key = key ∧ cut key < p.time)).map Prod.snd
    exact hper.nodup_iff.mpr ((List.filter_sublist.map _).nodup (nodup_arrivals seen))
  obtain ⟨p, hp, hpt, hpe, hv⟩ := fire_split hke g.events.sorted hno hf
  obtain ⟨hm, hpk, -⟩ := mem_keptAfter.mp hp
  have hn : p.2 ∉ fired.map Prod.snd := of_decide_eq_true hpe
  have hpr : isPrompt w₀.spec.kind = false := by
    by_contra h
    exact hn (hw.prompt (by simpa using h) p hm)
  have hpc := hw.pending p hm hn
  -- the flags after firing
  have hfl : (fun i => decide (i ∉ fired.map Prod.snd) && decide (i ≠ p.2)) =
      fun i => decide (i ∉ (fired ++ [p]).map Prod.snd) := by
    funext i
    have hi : i ∉ (fired ++ [p]).map Prod.snd ↔ i ∉ fired.map Prod.snd ∧ i ≠ p.2 := by
      simp
    rw [← Bool.decide_and]
    exact decide_eq_decide.mpr hi.symm
  rw [hfl] at hv
  have hfi : (g.fired (some e.1) w.spec.kind).events.entries =
      g.events.entries.map fun x => if x.1 = e.1 then (x.1, { x.2 with pending := false }) else x := by
    rcases hkind with h | h <;> rw [hs, h] <;> rfl
  rw [← hfi] at hv
  have hf0 : ∀ e' ∈ (g.fired (some e.1) w.spec.kind).events.entries, 0 ≤ timeOf e' := by
    intro e' he'
    obtain ⟨e'', he'', heq⟩ := mem_fired he'
    rw [timeOf, heq]
    exact h0 e'' he''
  obtain ⟨hcu, hc⟩ := cutoff_le (g := g.fired (some e.1) w.spec.kind) hsize htime hf0
  have ha : arrivals (seen ++ [b].map .rows) = arrivals seen := arrivals_append_of_none (accepted_rows [b])
  -- the row is the one of the window of `p`
  obtain ⟨row, hr, hwi⟩ : ∃ row, b.rows = [row] ∧ IsWindow w₀ size delay (arrivals seen) p row := by
    rw [← hpt] at hag
    have he := mem_of_find?_eq_some hf
    refine isWindow_of_aggregate hsane.config (hs ▸ hkind) (by simp [hpr]) (cut key) ?_
      (hsane.wf.width key g hg) hsize (hpt ▸ h0 e he) (hpt ▸ (hsane.ranged.fits key g hg e he).2) ?_ ?_ hag
    · rw [hpk]
      exact hsane.wf.encoded key g hg
    · rw [hpk]
      exact map_core_of_view hke
    · rw [hpk] at hpc
      omega
  refine ⟨update cut key (max (cut key) ((g.fired (some e.1) w.spec.kind).cutoff time size)), fired ++ [p], ?_⟩
  refine ⟨?_, ?_, ?_, ?_, ?_, fun k => ?_, fun _ => ?_, fun h => by simp [hpr] at h⟩
  · rw [ha]
    refine hw.retains.settle hsane hg hd time (some e.1)
      (view_settled_sliding (hs ▸ hkind) hsize htime _ h0 hv) fun q hq hne => ?_
    have hn' : q.2 ≠ p.2 := fun h => hne (by rw [eq_of_mem_arrivals hq hm h, hpk])
    simp [hn']
  · rw [ha, results_append, results_rows]
    simp only [flatMap_cons, flatMap_nil, append_nil, hr]
    exact rel_append hw.rows (.cons hwi .nil)
  · rw [map_append, map_singleton, ← concat_eq_append]
    exact hw.nodup.concat hn
  · rw [ha]
    exact forall_mem_concat.mpr ⟨hw.subset, hm⟩
  · rw [ha]
    intro q hq hqn
    have hold : q.2 ∉ fired.map Prod.snd := fun h => hqn (by
      rw [map_append]
      exact mem_append_left _ h)
    by_cases hk : q.1.key = key
    · have hqc := hw.pending q hq hold
      rw [hk] at hqc
      rw [hk, update_self]
      -- it is still pending, so above the cutoff
      have hqm : q ∈ keptAfter (arrivals seen) key (cut key) := mem_keptAfter.mpr ⟨hq, hk, by omega⟩
      obtain ⟨e', he', ht', hp'⟩ := exists_of_view hv hqm
      have := hc e' he' (hp'.trans (decide_eq_true hqn))
      omega
    · rw [update_of_ne hk]
      exact hw.pending q hq hold
  · exact hw.cut_le_update (by omega) k
  · refine forall_mem_concat.mpr ⟨hw.closed hpr, ?_⟩
    rw [hpt]
    omega

end

theorem fired_lt {i : ℕ} (hi : i ∈ fired.map Prod.snd) : i < (accepted seen).length := by
  obtain ⟨p, hp, rfl⟩ := List.mem_map.mp hi
  exact snd_lt_of_mem_arrivals (hw.subset p hp)

theorem rows_later (ho : ∀ p ∈ fired, inWindow size delay (isPrompt w₀.spec.kind) p q = false) :
    List.Forall₂ (IsWindow w₀ size delay (arrivals seen ++ [q])) fired (results seen) :=
  ((forall₂_and_left _ _).mpr ⟨ho, hw.rows⟩).imp fun _ _ h => h.2.later h.1

section

variable (hkind : w₀.spec.kind.Slides size delay) (hsane : w.Sane w₀.toBufferedConfig)

include hkind hsane

variable {timestamp : ℤ} {adm : Admission}

theorem push_delayed (hF : F ≤ timestamp)
    (had : w.Admits row timestamp adm) (hpr : isPrompt w₀.spec.kind = false) :
    SlidingInv w₀ size delay F (seen ++ [.accepted
      ⟨w.rowKey row, timestamp, adm.event.values⟩])
      (w.retained adm timestamp) cut fired := by
  have hs := hsane.kind_eq
  obtain ⟨hsize, -⟩ := valid_sliding hsane.wf.valid (hs ▸ hkind)
  set a : Arrival := ⟨w.rowKey row, timestamp, adm.event.values⟩
  have har : arrivals (seen ++ [.accepted a]) = arrivals seen ++ [(a, (accepted seen).length)] :=
    arrivals_concat seen a []
  have hr : results (seen ++ [.accepted a]) = results seen := by simpa using results_accepted seen a []
  have hc := hw.cut_le (w.rowKey row)
  refine ⟨?_, ?_, hw.nodup, fun p hp => ?_, ?_, hw.cut_le, hw.closed, fun h => by simp [hpr] at h⟩
  · rw [har]
    refine hw.retains.push hsane had (by omega) (fun _ _ => rfl) ?_
    rw [hs, hpr]
    exact decide_eq_true fun hm => lt_irrefl _ (hw.fired_lt hm)
  · rw [har, hr]
    refine hw.rows_later fun p hp => ?_
    -- what was emitted ends below the floor
    have := hw.closed hpr p hp
    have htime : time (a, (accepted seen).length) = timestamp := rfl
    simp only [inWindow, decide_eq_false_iff_not, htime]
    omega
  · rw [har]
    exact mem_append_left _ (hw.subset p hp)
  · rw [har]
    exact forall_mem_concat.mpr ⟨hw.pending, fun _ => hc.trans hF⟩

variable {out : Option RowBatch}

theorem push_prompt (hF : F ≤ timestamp) (h0 : 0 ≤ timestamp)
    (had : w.Admits row timestamp adm) (hpr : isPrompt w₀.spec.kind = true)
    (hi : (w.insertEvent adm timestamp).immediateRow grants adm.group.key.encoded timestamp adm.sequence = .ok out) :
    ∃ fired', SlidingInv w₀ size delay F (seen ++ .accepted
      ⟨w.rowKey row, timestamp, adm.event.values⟩ :: out.toList.map .rows)
      (w.retained adm timestamp) cut fired' := by
  have hs := hsane.kind_eq
  obtain ⟨hsize, -⟩ := valid_sliding hsane.wf.valid (hs ▸ hkind)
  set a : Arrival := ⟨w.rowKey row, timestamp, adm.event.values⟩
  set n := (accepted seen).length
  have hcu := hw.cut_le (w.rowKey row)
  obtain ⟨hpt, hde⟩ : w₀.spec.kind = .slidingProcessingTime size delay ∧ delay = 0 := by
    rcases hkind with h | h
    · simp [isPrompt, h] at hpr
    · exact ⟨h, by simpa [isPrompt, h] using hpr⟩
  obtain ⟨_, _, _, _, hf⟩ := w.insertEvent_frame adm timestamp
  -- the row emitted is the aggregate of the group with the event in it
  obtain ⟨b, g, rfl, hke, hwi, he, hag⟩ : ∃ b g, out = some b ∧
      encodeKeyValues g.key.values = w.rowKey row ∧ g.key.values.length = w.keys.length ∧
      g.events.entries.map core = (keptAfter (arrivals seen ++ [(a, n)]) (w.rowKey row)
        (cut (w.rowKey row))).map (fun q => (q.time, q.1.values)) ∧
      (w.insertEvent adm timestamp).aggregate grants g (timestamp - size + 1) (timestamp + delay + 1)
        (timestamp - size + 1) (timestamp + delay + 1) = .ok b := by
    set g := (w.groupFor row).added timestamp ((w.groupFor row).sequence + 1) adm.event with hg
    have hge : (w.insertEvent adm timestamp).groups.get? adm.group.key.encoded = some g := by
      rw [get?_insertEvent hsane.timed had]
    have him : (w.insertEvent adm timestamp).immediate timestamp adm.sequence =
        some (timestamp - size + 1, timestamp + delay + 1, timestamp - size + 1, timestamp + delay + 1) := by
      rw [hf]
      simp [immediate, hs, hpt, hde]
    cases hag : (w.insertEvent adm timestamp).aggregate grants g (timestamp - size + 1)
        (timestamp + delay + 1) (timestamp - size + 1) (timestamp + delay + 1) with
    | error e => simp [immediateRow, him, hge, hag, Except.map] at hi
    | ok b =>
      refine ⟨b, g, ?_, (groupFor_key hsane.wf row).2.1, (groupFor_key hsane.wf row).2.2, ?_, hag⟩
      · simpa [immediateRow, him, hge, hag, Except.map, eq_comm] using hi
      · have hk := hw.retains (w.rowKey row)
        rw [eventsOf_groupFor] at hk
        have haf : cut (w.rowKey row) < time (a, n) := (show cut (w.rowKey row) < timestamp by omega)
        rw [keptAfter_append haf, hg, entries_added hsane.ranged,
          map_place (τ := timeOf) (υ := Prod.fst) (f := core) (fun _ => rfl),
          map_place (τ := time) (υ := Prod.fst) (f := fun q : Numbered => (q.time, q.1.values))
            (fun _ => rfl), map_core_of_view hk]
        rfl
  have hc : (w.insertEvent adm timestamp).toBufferedConfig = w₀.toBufferedConfig := by
    rw [hf, ← hsane.config]
  obtain ⟨res, hr, hwin⟩ := isWindow_of_aggregate (p := (a, n)) hc
    (by rw [hc]; exact hkind)
    (fun _ => forall_mem_concat.mpr ⟨fun q hq => (snd_lt_of_mem_arrivals hq).le, le_rfl⟩)
    (cut (w.rowKey row)) hke (by rw [hwi, hc, hsane.config]) hsize h0
    (by rw [hf]; exact had.fits) he
    (by have : time (a, n) = timestamp := rfl
        omega) hag
  have har : arrivals (seen ++ .accepted a :: [b].map .rows) = arrivals seen ++ [(a, n)] := arrivals_concat seen a [b]
  have hal : ∀ p ∈ arrivals seen ++ [(a, n)], p.2 ∈ (fired ++ [(a, n)]).map Prod.snd := by
    rw [map_append]
    exact forall_mem_concat.mpr ⟨fun p hp => mem_append_left _ (hw.prompt hpr p hp), mem_concat_self⟩
  refine ⟨fired ++ [(a, n)], ?_⟩
  have hse : (some b).toList.map Seen.rows = [b].map Seen.rows := rfl
  rw [hse]
  refine ⟨?_, ?_, ?_, ?_, fun p hp hno => ?_, hw.cut_le, fun h => by simp [hpr] at h,
    fun _ p hp => ?_⟩
  · rw [har]
    refine hw.retains.push hsane had (by omega) (fun q hq => ?_) ?_
    · have hne : q.2 ≠ n := (snd_lt_of_mem_arrivals hq).ne
      simp [hne]
    · rw [hs, hpr]
      simp
  · rw [har, results_accepted]
    simp only [flatMap_cons, flatMap_nil, append_nil, hr]
    refine rel_append (hw.rows_later fun p hp => ?_) (.cons hwin .nil)
    -- it came later than what was emitted
    have := snd_lt_of_mem_arrivals (hw.subset p hp)
    have hlt : ¬ n ≤ p.2 := by omega
    simp [inWindow, hpr, hlt]
  · rw [map_append, map_singleton, ← concat_eq_append]
    exact hw.nodup.concat fun hm => lt_irrefl _ (hw.fired_lt hm)
  · rw [har]
    exact forall_mem_concat.mpr ⟨fun p hp => mem_append_left _ (hw.subset p hp), mem_concat_self⟩
  · exact absurd (hal p (har ▸ hp)) hno
  · exact hal p (har ▸ hp)

theorem take {time : ℤ} (hF : time ≤ F)
    (hdu : deadline ≤ time) (hg : w.groups.get? key = some g) (hd : g.deadline = some deadline)
    (ho : w.Emits grants g time out) :
    ∃ cut' fired', SlidingInv w₀ size delay F (seen ++ out.toList.map .rows)
      (w.settle key g deadline time ((g.dueAt time w.spec.kind).map (·.2.2))) cut' fired' := by
  have hsp := hsane.kind_eq
  obtain ⟨hsize, hde⟩ := valid_sliding hsane.wf.valid (hsp ▸ hkind)
  have h0 : ∀ e ∈ g.events.entries, 0 ≤ timeOf e := fun e he => (hsane.ranged.fits key g hg e he).1
  have hn := (hsane.wf.deadline key g hg).trans (g.nextDeadline_slides (hsp ▸ hkind))
  have hat := g.dueAt_slides time (hsp ▸ hkind)
  cases hfi : g.firstPending with
  | none =>
    simp only [hfi] at hat hn
    have htime : 0 ≤ time := by
      rw [hd] at hn
      obtain ⟨f, hf, rfl⟩ := Option.map_eq_some_iff.mp hn.symm
      have := h0 f (mem_of_mem_head? hf)
      omega
    rcases ho with ⟨-, rfl⟩ | ⟨_, _, _, _, hs, -⟩
    · rw [hat]
      obtain ⟨cut', hi⟩ := hw.evict hkind hsane hF htime hg hd hfi
      exact ⟨cut', fired, by simpa using hi⟩
    · simp [hat] at hs
  | some e =>
    simp only [hfi] at hat hn
    obtain rfl : deadline = timeOf e + delay + 1 := Option.some.inj (hd.symm.trans hn)
    rw [if_pos hdu] at hat
    have htime : 0 ≤ time := by
      have := h0 e (mem_of_find?_eq_some hfi)
      omega
    rcases ho with ⟨hno, -⟩ | ⟨start, stop, consumed, b, hs, rfl, ha⟩
    · simp [hat] at hno
    · obtain ⟨rfl, rfl, rfl⟩ : timeOf e - size + 1 = start ∧ timeOf e + delay + 1 = stop ∧
          e.1 = consumed := by simpa [hat] using hs
      rw [hat]
      exact hw.fire hkind hsane hF htime hg hd hfi hdu ha

end

end

end SlidingInv

open Executor in
/-- **Every change the executor makes keeps the invariant.** -/
theorem slidingInv_carried {w₀ : BufferedWindow} {size delay : Int64}
    (hkind : w₀.spec.kind.Slides size delay) : Carried w₀.toBufferedConfig fun F seen w =>
      ∃ cut fired, SlidingInv w₀ size delay F seen w cut fired where
  mono := by
    rintro F F' seen w hle ⟨cut, fired, hw⟩
    exact ⟨cut, fired, { hw with
      cut_le := fun k => (hw.cut_le k).trans hle
      closed := fun h p hp => (hw.closed h p hp).trans_le hle }⟩
  frame := by
    rintro F seen w n hub ⟨cut, fired, hw⟩
    exact ⟨cut, fired, { hw with retains := hw.retains }⟩
  note := by
    rintro F seen w s hac hro ⟨cut, fired, hw⟩
    have ha := arrivals_note seen hac
    have hr := results_note seen hro
    exact ⟨cut, fired, by rw [ha]; exact hw.retains, by rw [ha, hr]; exact hw.rows, hw.nodup,
      by rw [ha]; exact hw.subset, by rw [ha]; exact hw.pending, hw.cut_le, hw.closed,
      by rw [ha]; exact hw.prompt⟩
  take := by
    rintro F seen w key g deadline time grants out hsane ⟨cut, fired, hw⟩ hF hdu hg hd ho
    exact hw.take hkind hsane hF hdu hg hd ho
  push := by
    rintro F seen w row timestamp adm grants out hsane ⟨cut, fired, hw⟩ hF h0 had hi
    cases hpr : isPrompt w₀.spec.kind with
    | true =>
      obtain ⟨fired', hin⟩ := hw.push_prompt hkind hsane hF h0 had hpr hi
      exact ⟨cut, fired', hin⟩
    | false =>
      have hn : (w.insertEvent adm timestamp).immediate timestamp adm.sequence = none := by
        obtain ⟨_, _, _, _, hf⟩ := w.insertEvent_frame adm timestamp
        have hs := hsane.kind_eq
        rcases hkind with h | h <;> simp_all [immediate, isPrompt]
      obtain rfl : none = out := by simpa [immediateRow, hn] using hi
      exact ⟨cut, fired, hw.push_delayed hkind hsane hF had hpr⟩

/-! ### Whole runs -/

open Executor

theorem floor_carried (c : BufferedConfig) (F₀ : ℤ) : Carried c fun F seen _ =>
    F₀ ≤ F ∧ ∀ a ∈ accepted seen, F₀ ≤ a.time where
  mono := fun hle h => ⟨h.1.trans hle, h.2⟩
  frame := fun _ _ h => h
  note := by
    rintro F seen - s hac - h
    cases s with
    | accepted a => exact absurd rfl (hac a)
    | _ => simpa [accepted] using h
  take := by
    rintro F seen w key g deadline time grants out - h - - - - -
    simpa using h
  push := by
    rintro F seen w row timestamp adm grants out - h hF - - -
    refine ⟨h.1, fun a ha => ?_⟩
    rw [accepted_append, mem_append] at ha
    rcases ha with ha | ha
    · exact h.2 a ha
    · rw [accepted_push, mem_singleton] at ha
      rw [ha]
      exact h.1.trans hF

theorem Created.slidingInv {spec : WindowSpec} {external : Bool}
    (hw : Created spec external w) (size delay : ℤ) :
    SlidingInv w size delay w.floor [] w (fun _ => -size) [] := by
  have hf := hw.floor_nonneg
  refine ⟨fun k => ?_, .nil, by simp, by simp, by simp [arrivals, accepted], fun _ => by simpa using hf,
    by simp, by simp [arrivals, accepted]⟩
  simp [eventsOf, hw.groups, keptAfter, arrivals, accepted]

/-- **Sliding windows of time.** In a run without idle controls and errors, every event that
is accepted gets exactly one row, the result of its window over everything accepted; and after
any part of the inputs, all that has arrived of the window of an event whose row has not been
emitted, be it here or still to come, is retained. -/
theorem sliding_windows {spec : WindowSpec} {input : Schema}
    {budgetKeys budgetTimers maxKeys maxTimers : ℕ} {external : Bool} {w₀ : BufferedWindow}
    (hnew : BufferedWindow.new spec input budgetKeys budgetTimers maxKeys maxTimers external = .ok w₀)
    {size delay : Int64} (hkind : spec.kind.Slides size delay) {inputs : List Input}
    (hsteady : ∀ i ∈ inputs, i.Steady) {grants : ℕ → Grants} {wake : ℤ → ℤ} (hwake : ∀ d, d ≤ wake d)
    {seen : List Seen} {x : Executor}
    (hrun : Executor.run { op := w₀, last := none } inputs grants wake = .ok (seen, x)) :
    (∃ rows, rows.Perm (results seen) ∧ List.Forall₂ (IsWindow w₀ size delay (arrivals seen)) (arrivals seen) rows) ∧
    ∀ pre post, inputs = pre ++ post → ∃ seen₁ x₁ fired,
      Machine.runOk Executor.step { op := w₀, last := none } pre = .ok (seen₁, x₁) ∧
      (∀ p ∈ fired, p ∈ arrivals seen₁) ∧
      List.Forall₂ (IsWindow w₀ size delay (arrivals seen₁)) fired (results seen₁) ∧
      ∀ p ∈ arrivals seen, p ∉ fired → ((x₁.op.eventsOf p.1.key).filter fun e =>
          p.time - size + 1 ≤ timeOf e ∧ timeOf e < p.time + delay + 1).map core =
        (windowOf size delay false (arrivals seen₁) p).map fun q => (q.time, q.1.values) := by
  obtain ⟨hc, -⟩ := new_eq_ok hnew
  have hk' : w₀.spec.kind.Slides size delay := by rw [hc.spec_eq]; exact hkind
  have hsane := hc.sane (.inl ⟨size, delay, hkind⟩)
  have hca := slidingInv_carried hk'
  have hs : ∃ cut fired, SlidingInv w₀ size delay w₀.floor [] w₀ cut fired := ⟨_, _, hc.slidingInv size delay⟩
  obtain ⟨hsize, -⟩ := valid_sliding hc.wf.valid hk'
  refine ⟨?_, ?_⟩
  · obtain ⟨-, ⟨F, cut, fired, hin⟩, hem⟩ :=
      hca.run (x := { op := w₀, last := none }) hsane hs hsteady hwake hrun
    -- nothing is retained, so nothing is pending
    have ha : ∀ p ∈ arrivals seen, p.2 ∈ fired.map Prod.snd := by
      intro p hp
      by_contra hn
      obtain ⟨e, he, -⟩ := hin.mem_pending hsize hp hn
      have hno : x.op.groups.get? p.1.key = none := SortedMap.get?_eq_none_iff.mpr fun v hv => by simp [hem] at hv
      simp [eventsOf, hno] at he
    have hpe : (arrivals seen).Perm fired := by
      refine (perm_ext_iff_of_nodup (nodup_arrivals seen).of_map hin.nodup.of_map).mpr fun p => ?_
      refine ⟨fun hp => ?_, hin.subset p⟩
      obtain ⟨q, hq, heq⟩ := List.mem_map.mp (ha p hp)
      exact eq_of_mem_arrivals (hin.subset q hq) hp heq ▸ hq
    obtain ⟨rows, hro, hper⟩ := perm_comp_forall₂ hpe hin.rows
    exact ⟨rows, hper, hro⟩
  · rintro pre post rfl
    obtain ⟨before, x₁, rest, hpr, hpo, rfl⟩ := run_append hrun
    obtain ⟨hs₁, cut, fired, hin⟩ := hca.inputs hsane hs
      (fun i hi => hsteady i (mem_append_left post hi)) hpr
    obtain ⟨-, ⟨F, -, hr⟩, -⟩ := (floor_carried w₀.toBufferedConfig x₁.op.floor).run hs₁
      ⟨le_rfl, by simp [accepted]⟩ (fun i hi => hsteady i (mem_append_right pre hi)) hwake hpo
    refine ⟨before, x₁, fired, hpr, hin.subset, hin.rows, fun p hp hn => ?_⟩
    -- the window of `p` starts above the cut of its key
    have hcu : cut p.1.key + size ≤ p.time := by
      rcases mem_arrivals_append hp with hp | hp
      · refine hin.pending p hp fun hm => hn ?_
        obtain ⟨q, hq, heq⟩ := List.mem_map.mp hm
        exact eq_of_mem_arrivals (hin.subset q hq) hp heq ▸ hq
      · exact (hin.cut_le p.1.key).trans (hr p.1 hp)
    rw [filter_core (p.time + delay + 1) (map_core_of_view (hin.retains p.1.key)) (by omega), windowOf]
    congr 2
    refine filter_congr fun q _ => ?_
    simp [inWindow]

/-- Windows of key `k` over event time `t` of the last `10` before an event and the next `5`. -/
def sampleSliding : WindowSpec := (WindowSpec.new (.slidingEventTime 10 5) ["k"] [sampleCount]).eventTime "t" 0

/-- A new operator for `sampleSliding`. -/
def sampleSlidingWindow : BufferedWindow :=
  Result.value (BufferedWindow.new sampleSliding sampleSchema 100 100 100 100 false) (by decide)

/-- Events at `100`, `104` and `120`; the rows of the first two are due at the third. -/
def sampleInputs : List Input := [100, 104, 120].map fun t => .row .all (fun _ => .all) (sampleRow t) 1000

/-- The run of `sampleInputs` to its end. -/
def sampleRun : List Seen × Executor :=
  Result.value (Executor.run { op := sampleSlidingWindow, last := none } sampleInputs (fun _ => .all) id)
    (by decide)

theorem sliding_windows_sample : (accepted sampleRun.1).map Arrival.time = [100, 104, 120] ∧
    (results sampleRun.1).map (·.values) =
      [(91, 106, 2), (95, 110, 2), (111, 126, 1)].map (fun (start, stop, n) =>
        [.int64 1, .int64 start, .int64 stop, .int64 n]) ∧
    ∃ rows, rows.Perm (results sampleRun.1) ∧ List.Forall₂
      (IsWindow sampleSlidingWindow 10 5 (arrivals sampleRun.1)) (arrivals sampleRun.1) rows := by
  refine ⟨by decide, rfl, ?_⟩
  have hn : BufferedWindow.new sampleSliding sampleSchema 100 100 100 100 false =
      .ok sampleSlidingWindow := Result.eq_value _
  have hr : Executor.run { op := sampleSlidingWindow, last := none } sampleInputs (fun _ => .all) id =
      .ok (sampleRun.1, sampleRun.2) := Result.eq_value (by decide)
  have hs : ∀ i ∈ sampleInputs, i.Steady := by
    intro i hi
    obtain ⟨t, -, rfl⟩ := List.mem_map.mp hi
    trivial
  exact (sliding_windows hn (.inl rfl) hs (fun d => le_refl d) hr).1

end BufferedWindow

end Sparrow.Runtime
