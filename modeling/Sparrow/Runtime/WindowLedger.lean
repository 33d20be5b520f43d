import Sparrow.Runtime.WindowExecutor

/-!
# Every row in its windows, every window once

A window is named by the bytes of its group and its start. What a tumbling or hopping window
over event time has been given is a function from windows to rows, in order of
arrival; what it has emitted is a list of windows. The open windows are balanced against
these: the accumulators of a window that has not been emitted are the fold of its rows, and there
are none for one that has.

## The ledger

* `Balanced` — the open windows, what they were given, and what was emitted.
* `Balanced.folds` — a row enters each of its open windows, and no other.
* `Balanced.takes` — a window that is taken is emitted with the fold of its rows.
-/

namespace Sparrow.Runtime

open Library Model Plan OpenWindows SortedMap List

variable {row : Row} {wmIn : Option ℤ} {cut start : ℤ}

namespace WindowConfig

variable (c : WindowConfig)

def Folded (rows : List Row) (accs : List Accumulator) : Prop :=
  ∃ empty, c.emptyAccs = .ok empty ∧ c.foldRows empty rows = .ok accs

/-- The entry of a window that was given `rows`: there is one if there is a row, under the
key of the first. -/
def Accumulated (rows : List Row) : Option (Stored TumbleEntry) → Prop
  | none => rows = []
  | some e => (∃ first, rows.head? = some first ∧ e.key = etStateKey (c.groupKey first) e.value.windowStart) ∧
      c.Folded rows e.value.accs

def windowOf (row : Row) : Option (Bytes × ℤ) :=
  (finalOf c.groupIdx.length row).map fun f => (f.1, f.2.1)

/-- The final of a window: the key columns of its first row, its bounds, and the fold of the
rows it was given. It is
sent when the input watermark is past its end by the lateness; the holdback is not negative, so
that this only says something of windows that end after zero, which all do unless
watermarks come from outside. -/
def IsFinal (size : Int64) (content : Bytes × ℤ → List Row) (wmIn : Option ℤ) (row : Row) : Prop :=
  ∃ first start accs, row = resultRow (c.groupKey first) start (satAddI start size) accs ∧
    finalOf c.groupIdx.length row = some (encodeKeyValues (c.groupKey first), start, satAddI start size) ∧
    (content (encodeKeyValues (c.groupKey first), start)).head? = some first ∧
    c.Folded (content (encodeKeyValues (c.groupKey first), start)) accs ∧
    (c.externalWatermarks = false → 0 < satAddI start size) ∧
    ∃ wm, wmIn = some wm ∧ (0 < satAddI start size → satAddI start size + c.spec.latenessMicros ≤ wm)

theorem IsFinal.congr {c : WindowConfig} {size : Int64} {content content' : Bytes × ℤ → List Row}
    (h : c.IsFinal size content wmIn row) (hs : ∀ p, c.windowOf row = some p → content' p = content p) :
    c.IsFinal size content' wmIn row := by
  obtain ⟨first, start, accs, hr, hf, hfi, hfo, hp, hwm⟩ := h
  have heq := hs (encodeKeyValues (c.groupKey first), start) (by simp [windowOf, hf])
  exact ⟨first, start, accs, hr, hf, heq ▸ hfi, heq ▸ hfo, hp, hwm⟩

/-- An open window as a row leaves it. -/
structure IsWindow (c : WindowConfig) (size : Int64) (e : Stored TumbleEntry) : Prop where
  key : ∃ group, e.key = etStateKey group e.value.windowStart ∧ group.length = c.groupIdx.length
  start : fitsI64 e.value.windowStart = true
  stop : e.value.windowEnd = satAddI e.value.windowStart size
  pos : c.externalWatermarks = false → 0 < e.value.windowEnd

end WindowConfig

open WindowConfig

/-- Give a row to the windows of a group with the given starts. -/
def addRow (content : Bytes × ℤ → List Row) (g : Bytes) (starts : List ℤ) (row : Row) (p : Bytes × ℤ) : List Row :=
  if p.1 = g ∧ p.2 ∈ starts then content p ++ [row] else content p

theorem addRow_addRow {content : Bytes × ℤ → List Row} {g : Bytes} {rest : List ℤ} (h : start ∉ rest) :
    addRow (addRow content g [start] row) g rest row = addRow content g (start :: rest) row := by
  funext p
  unfold addRow
  by_cases hg : p.1 = g
  · by_cases hs : p.2 = start
    · simp [hg, hs, h]
    · simp [hg, hs]
  · simp [hg]

/-- The open windows against what they were given and what was emitted, which is closed at
`bound`. -/
structure Balanced (c : WindowConfig) (size : Int64) (content : Bytes × ℤ → List Row)
    (done : List (Bytes × ℤ)) (bound : Option ℤ) (o : OpenWindows) : Prop where
  indexed : o.Indexed
  window : ∀ {k e}, o.entries.get? k = some e → c.IsWindow size e
  folded : ∀ {p : Bytes × ℤ}, fitsI64 p.2 = true → p ∉ done →
    c.Accumulated (content p) (o.entries.get? (etKeyBytes p.1 p.2))
  gone : ∀ {p}, p ∈ done → o.entries.get? (etKeyBytes p.1 p.2) = none
  closed : ∀ {p}, p ∈ done → fitsI64 p.2 = true ∧ ∃ b, bound = some b ∧ satAddI p.2 size ≤ b
  once : done.Nodup

namespace Balanced

variable {c : WindowConfig} {size : Int64} {content : Bytes × ℤ → List Row} {done : List (Bytes × ℤ)}
  {bound : Option ℤ} {o o' : OpenWindows}

section

variable (h : Balanced c size content done bound o)

include h

theorem not_mem_done {g : Bytes} (ho : ∀ b, bound = some b → b < satAddI start size) : (g, start) ∉ done := by
  intro hm
  obtain ⟨-, b, hb, hle⟩ := h.closed hm
  exact absurd (ho b hb) (not_lt.mpr hle)

/-- **A row enters one open window.** -/
theorem fold (hf : fitsI64 start = true) (hop : ∀ b, bound = some b → b < satAddI start size)
    (hpo : c.externalWatermarks = false → 0 < satAddI start size)
    (hfo : Fold c row (etStateKey (c.groupKey row) start) start (satAddI start size) o o') :
    Balanced c size (addRow content (encodeKeyValues (c.groupKey row)) [start] row) done bound o' := by
  have hke := encodeKeyValues_etStateKey (c.groupKey row) start
  have hn : (encodeKeyValues (c.groupKey row), start) ∉ done := h.not_mem_done hop
  have hi := h.indexed.fold hfo
  obtain ⟨ho, hu⟩ := hfo
  -- keys of other windows are other keys
  have hot : ∀ {p : Bytes × ℤ}, fitsI64 p.2 = true → p ≠ (encodeKeyValues (c.groupKey row), start) →
      etKeyBytes p.1 p.2 ≠ encodeKeyValues (etStateKey (c.groupKey row) start) := by
    intro p hp hne heq
    rw [hke] at heq
    obtain ⟨hg, hs⟩ := etKeyBytes_inj hp hf heq
    exact hne (Prod.ext hg hs)
  refine ⟨hi, ?_, ?_, ?_, h.closed, h.once⟩
  · intro k e he
    obtain ⟨-, rfl⟩ | ⟨-, he⟩ := get?_insert_eq_some.mp he
    · cases ho with
      | found hge =>
        obtain ⟨hk, hs, hst, hpo⟩ := h.window hge
        exact ⟨hk, hs, hst, hpo⟩
      | fresh => exact ⟨⟨_, rfl, by simp [groupKey]⟩, hf, rfl, hpo⟩
    · exact h.window he
  · intro p hp hd
    obtain rfl | hpe := eq_or_ne p ((encodeKeyValues (c.groupKey row), start))
    · have hb := h.folded hf hn
      simp only [← hke, get?_insert_self, addRow, mem_singleton, and_self, ↓reduceIte] at hb ⊢
      cases ho with
      | found hge =>
        rw [hge] at hb
        obtain ⟨⟨first, hfi, hke⟩, empty, hem, hr⟩ := hb
        refine ⟨⟨first, ?_, hke⟩, empty, hem, foldRows_concat hr hu⟩
        rw [head?_append, hfi]
        rfl
      | fresh hge hem =>
        rw [hge] at hb
        rw [show content (encodeKeyValues (c.groupKey row), start) = [] from hb]
        exact ⟨⟨row, rfl, rfl⟩, _, hem, foldRows_concat rfl hu⟩
    · rw [get?_insert_of_ne _ _ (hot hp hpe)]
      have hsa : addRow content (encodeKeyValues (c.groupKey row)) [start] row p = content p := by
        refine if_neg fun ha => hpe (Prod.ext ha.1 ?_)
        simpa using ha.2
      rw [hsa]
      exact h.folded hp hd
  · intro p hp
    rw [get?_insert_of_ne _ _ (hot (h.closed hp).1 fun heq => hn (heq ▸ hp))]
    exact h.gone hp

/-- **A row enters each of its open windows, and no other.** -/
theorem folds {windows : List (ℤ × ℤ)} {ts : ℤ}
    (hw : Windows ts size windows) (ho : ∀ p ∈ windows, ∀ b, bound = some b → b < p.2)
    (hpo : c.externalWatermarks = false → 0 ≤ ts) (hfo : Folds c row (c.groupKey row) windows o o') :
    Balanced c size (addRow content (encodeKeyValues (c.groupKey row)) (windows.map Prod.fst) row) done bound
      o' := by
  induction hfo generalizing content with
  | nil o =>
    have hs : addRow content (encodeKeyValues (c.groupKey row)) [] row = content := by
      funext p
      simp [addRow]
    rw [map_nil, hs]
    exact h
  | @cons start stop rest o₁ o₂ o₃ hf _ ih =>
    have hst : stop = satAddI start size := hw.stops (start, stop) mem_cons_self
    subst hst
    have hn := (List.nodup_cons.mp hw.starts).1
    have hon := h.fold (hw.fits _ mem_cons_self) (ho _ mem_cons_self)
      (fun he => hw.pos (hpo he) _ mem_cons_self) hf
    have := ih hon (hw.sublist (sublist_cons_self _ _)) fun p hp => ho p (mem_cons_of_mem _ hp)
    rwa [addRow_addRow hn] at this

end

/-- **A window that is taken** is emitted with the fold of its rows. -/
theorem take (h : Balanced c size content done (some cut) o) {k : Bytes} {e : Stored TumbleEntry}
    (hsu : c.suffixedKey = true) (hge : o.entries.get? k = some e) (hc : e.value.windowEnd ≤ cut)
    (hwm : ∃ wm, wmIn = some wm ∧ ∀ stop ≤ cut, 0 < stop → stop + c.spec.latenessMicros ≤ wm) :
    ∃ p, c.windowOf (resultRow (c.groupOf e.key) e.value.windowStart e.value.windowEnd e.value.accs) = some p ∧
      c.IsFinal size content wmIn
        (resultRow (c.groupOf e.key) e.value.windowStart e.value.windowEnd e.value.accs) ∧
      Balanced c size content (done ++ [p]) (some cut) (o.remove k e.value.windowEnd) := by
  obtain ⟨⟨group, hke, hl⟩, hst, hsto, hpo⟩ := h.window hge
  have hgr : c.groupOf e.key = group := by simp [groupOf, hsu, hke, groupFromEtKey, etStateKey]
  have hk : k = etKeyBytes (encodeKeyValues group) e.value.windowStart := by
    rw [← h.indexed.keyed hge, hke, encodeKeyValues_etStateKey]
  have hfi := finalOf_resultRow e.value.accs hl hst
    (show fitsI64 (satAddI e.value.windowStart size) = true from fitsI64_clampI64 _)
  have hn : (encodeKeyValues group, e.value.windowStart) ∉ done := fun hm => by
    have := h.gone hm
    rw [← hk, hge] at this
    cases this
  have hf := h.folded (p := (encodeKeyValues group, e.value.windowStart)) hst hn
  rw [← hk, hge] at hf
  obtain ⟨⟨first, hfir, hfirs⟩, hf⟩ := hf
  obtain rfl : group = c.groupKey first := append_cancel_right (hke.symm.trans hfirs)
  rw [hsto] at hpo hc
  rw [hgr, hsto]
  refine ⟨(encodeKeyValues (c.groupKey first), e.value.windowStart), by simp [windowOf, hfi], ?_, ?_⟩
  · obtain ⟨wm, hwm, hle⟩ := hwm
    exact ⟨first, e.value.windowStart, e.value.accs, rfl, hfi, hfir, hf, hpo, wm, hwm, hle _ hc⟩
  · rw [← hsto]
    refine ⟨h.indexed.remove hge, ?_, ?_, ?_, ?_, ?_⟩
    · intro k' e' he'
      exact h.window (get?_erase_eq_some.mp he').2
    · intro p hp hd
      rw [mem_append, mem_singleton, not_or] at hd
      have hne : etKeyBytes p.1 p.2 ≠ k := fun heq => by
        obtain ⟨hg, hs⟩ := etKeyBytes_inj hp hst (heq.trans hk)
        exact hd.2 (Prod.ext hg hs)
      simp only [OpenWindows.remove, get?_erase, if_neg hne]
      exact h.folded hp hd.1
    · intro p hp
      simp only [OpenWindows.remove, get?_erase]
      split_ifs with heq
      · rfl
      · obtain hp | hp := List.mem_append.mp hp
        · exact h.gone hp
        · rw [List.mem_singleton.mp hp] at heq
          exact absurd hk.symm heq
    · intro p hp
      obtain hp | hp := List.mem_append.mp hp
      · exact h.closed hp
      · rw [List.mem_singleton.mp hp]
        exact ⟨hst, cut, rfl, hc⟩
    · exact pairwise_concat.mpr ⟨h.once, fun a ha heq => hn (heq ▸ ha)⟩

/-- **Every window that is taken is emitted once**, with the fold of its rows. -/
theorem takes (h : Balanced c size content done (some cut) o) {rows : List Row} (hs : c.suffixedKey = true)
    (hwm : ∃ wm, wmIn = some wm ∧ ∀ stop ≤ cut, 0 < stop → stop + c.spec.latenessMicros ≤ wm)
    (ht : Takes c cut o rows o') : (∀ row ∈ rows, c.IsFinal size content wmIn row) ∧
      Balanced c size content (done ++ rows.filterMap c.windowOf) (some cut) o' := by
  induction ht generalizing done with
  | nil o => exact ⟨by simp, by simpa using h⟩
  | cons hg hc _ ih =>
    obtain ⟨p, hp, hf, hre⟩ := h.take hs hg hc hwm
    obtain ⟨hfi, hb⟩ := ih hre
    refine ⟨fun row hr => ?_, ?_⟩
    · obtain rfl | hr := List.mem_cons.mp hr
      exacts [hf, hfi row hr]
    · rw [filterMap_cons_some hp]
      simpa using hb

theorem mono (h : Balanced c size content done bound o) (hle : ∀ b, bound = some b → b ≤ cut) :
    Balanced c size content done (some cut) o :=
  ⟨h.indexed, h.window, h.folded, h.gone, fun hp => by
    obtain ⟨hf, b, hb, hc⟩ := h.closed hp
    exact ⟨hf, cut, rfl, hc.trans (hle b hb)⟩, h.once⟩

end Balanced

end Sparrow.Runtime
