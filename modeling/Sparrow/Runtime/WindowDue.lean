import Mathlib.Data.List.TakeWhile
import Sparrow.Runtime.WindowSteps

/-!
# Timers of processing-time windows

`window.rs`, `fire_due` and `on_batch`: a clock reading pops the timers that are due, and the
windows that end there are flushed before the rows of the batch are taken in. A window that is
opened has its end among the timers, so that after a reading no window is left that ends by it.
-/

namespace Sparrow.Runtime

open Library Model Plan OpenWindows SortedMap List

namespace WindowOperator

/-! ### The model -/

/-- The first window of the closed index that ends at `stop`. -/
def nextEndingKey (w : WindowOperator) (stop : ℤ) : Option (List Scalar) :=
  match w.closedIndex.entries.find? fun e => stop ≤ (ofLex e.1).1 with
  | some (entry, key) => if (ofLex entry).1 = stop then some key else none
  | none => none

/-- Take the window under `key` out of the store and the index. -/
def flushKey (w : WindowOperator) (key : List Scalar) (stop : ℤ) : Option Row × WindowOperator :=
  match w.store with
  | .count _ => (none, w.indexRemove key stop)
  | .tumble state =>
    ((state.get? key).map fun entry => resultRow (w.groupOf key) entry.windowStart entry.windowEnd entry.accs,
      indexRemove { w with store := .tumble (state.remove key) } key stop)

/-- The inner loop of `flush_tumble_ends`; each round takes an entry out of the index, which
bounds the rounds. -/
def flushEnd (stop : ℤ) : ℕ → WindowOperator → List Row × WindowOperator
  | 0, w => ([], w)
  | n + 1, w =>
    match w.nextEndingKey stop with
    | none => ([], w)
    | some key =>
      let (row, w) := w.flushKey key stop
      let (rows, w) := flushEnd stop n w
      (row.toList ++ rows, w)

/-- `flush_tumble_ends`, the ends in order. -/
def flushTumbleEnds : List ℤ → WindowOperator → List Row × WindowOperator
  | [], w => ([], w)
  | stop :: rest, w =>
    let (rows, w) := flushEnd stop w.closedIndex.size w
    let (more, w) := flushTumbleEnds rest w
    (rows ++ more, w)

/-- `fire_due`. -/
def fireDue (w : WindowOperator) (now : ℤ) : List Row × WindowOperator :=
  let (now, w) := w.hoppingNow now
  if w.spec.kind.usesEventTime then ([], w)
  else
    let (due, timers) := w.timers.fireDue now
    let w := { w with timers }
    if due = [] then ([], w) else flushTumbleEnds due w

/-- `on_batch`: what is due, then the rows. -/
def onBatch (w : WindowOperator) (leases : ℕ → Leases) (rows : List Row) (now : ℤ) :
    Result WindowEmission × WindowOperator :=
  let (due, w) := w.fireDue now
  let (r, w) := w.onBatchWithoutTimers leases rows now
  (r.map fun next => { next with finals := due ++ next.finals }, w)

end WindowOperator

/-! ### Flushing -/

variable {rows : List Row} {cut now stop start : ℤ} {leases : Leases} {key : List Scalar} {row : Row} {i : ℕ}

namespace OpenWindows

theorem Takes.sub {c : WindowConfig} {o o' : OpenWindows} (h : Takes c cut o rows o') {k : Bytes}
    {e : Stored TumbleEntry} (he : o'.entries.get? k = some e) : o.entries.get? k = some e := by
  induction h with
  | nil => exact he
  | cons _ _ _ ih =>
    have hl := ih he
    exact (get?_erase_eq_some.mp hl).2

def Timed (o : OpenWindows) (timers : BoundedTimers) : Prop :=
  ∀ k e, o.entries.get? k = some e → timers.live.get? e.value.windowEnd = some ()

theorem Timed.remove {o : OpenWindows} {timers : BoundedTimers} (h : o.Timed timers) (k : Bytes) (stop : ℤ) :
    (o.remove k stop).Timed timers := by
  intro k' e he
  exact h k' e (get?_erase_eq_some.mp he).2

end OpenWindows

namespace WindowOperator

variable {w w' : WindowOperator} {state : MemoryState TumbleEntry}

theorem nextEndingKey_cases (ho : (w.windows state).Indexed) (stop : ℤ) :
    (w.nextEndingKey stop = none ∧ ∀ k e, state.entries.get? k = some e → e.value.windowEnd ≠ stop) ∨
      ∃ k e, w.nextEndingKey stop = some e.key ∧ encodeKeyValues e.key = k ∧ state.entries.get? k = some e ∧
        e.value.windowEnd = stop := by
  unfold nextEndingKey
  have hl : ∀ k e, state.entries.get? k = some e → (toLex (e.value.windowEnd, k), e.key) ∈ w.closedIndex.entries :=
    fun k e he => mem_entries_iff.mpr (ho.listed.mpr ⟨e, he, rfl, rfl⟩)
  cases hf : w.closedIndex.entries.find? fun e => stop ≤ (ofLex e.1).1 with
  | none =>
    refine .inl ⟨rfl, fun k e he heq => ?_⟩
    have := List.find?_eq_none.mp hf _ (hl k e he)
    simp [heq] at this
  | some i =>
    obtain ⟨i, key⟩ := i
    obtain ⟨hle, before, after, hsp, hb⟩ := List.find?_eq_some_iff_append.mp hf
    have hm : (i, key) ∈ w.closedIndex.entries := hsp ▸ by simp
    dsimp only
    split_ifs with hst
    · obtain ⟨e, he, rfl, hend⟩ := ho.listed.mp (mem_entries_iff.mp hm)
      exact .inr ⟨_, e, rfl, ho.keyed he, he, hend.trans hst⟩
    · refine .inl ⟨rfl, fun k e he heq => ?_⟩
      -- an entry at `stop` is neither before the one found nor after it
      have hen := hl k e he
      have hs := w.closedIndex.sorted
      rw [hsp] at hen hs
      rw [mem_append, mem_cons] at hen
      obtain hen | hen | hen := hen
      · have := hb _ hen
        simp [heq] at this
      · have hi : toLex (e.value.windowEnd, k) = i := congrArg Prod.fst hen
        exact hst (by rw [← hi, ← heq]; rfl)
      · have hlt := (List.pairwise_cons.mp (List.pairwise_append.mp hs).2.1).1 _ hen
        have hl' : (ofLex i).1 ≤ stop := by
          rw [← heq]
          exact (Prod.Lex.lt_iff.mp hlt).elim le_of_lt fun h => h.1.le
        have : stop ≤ (ofLex i).1 := by simpa using hle
        omega

/-- **One end flushed**: the windows that end there are taken, and none is left. -/
theorem flushEnd_ok (hc : stop ≤ cut) {n : ℕ} (hst : w.store = .tumble state) (ho : (w.windows state).Indexed)
    (hn : w.closedIndex.size ≤ n) (h : flushEnd stop n w = (rows, w')) :
    ∃ o, Takes w.toWindowConfig cut (w.windows state) rows o ∧ w' = w.withWindows state o ∧
      ∀ k e, o.entries.get? k = some e → e.value.windowEnd ≠ stop := by
  have hs : w = w.withWindows state (w.windows state) := by rw [withWindows, windows, ← hst]
  induction n generalizing w state rows with
  | zero =>
    obtain ⟨rfl, rfl⟩ : [] = rows ∧ w = w' := by simpa [flushEnd] using h
    refine ⟨_, .nil _, hs, fun k e he => ?_⟩
    -- the index is empty, so that there is no window
    have hm : (toLex (e.value.windowEnd, k), e.key) ∈ w.closedIndex.entries :=
      mem_entries_iff.mpr (ho.listed.mpr ⟨e, he, rfl, rfl⟩)
    rw [List.length_eq_zero_iff.mp (Nat.le_zero.mp hn)] at hm
    cases hm
  | succ n ih =>
    rw [flushEnd] at h
    obtain ⟨hno, hl⟩ | ⟨k, e, hk, rfl, hg, rfl⟩ := nextEndingKey_cases ho stop
    · rw [hno] at h
      obtain ⟨rfl, rfl⟩ : [] = rows ∧ w = w' := by simpa using h
      exact ⟨_, .nil _, hs, hl⟩
    · rw [hk] at h
      simp only [flushKey, hst, MemoryState.get?, hg, Option.map_some, Option.toList_some] at h
      generalize hr : flushEnd _ n _ = rest at h
      obtain ⟨more, w₁⟩ := rest
      obtain ⟨rfl, rfl⟩ : _ = rows ∧ w₁ = w' := by simpa using h
      have hsi := size_erase (ho.listed.mpr ⟨e, hg, rfl, rfl⟩)
      obtain ⟨o, ht, rfl, hl⟩ := ih (w := indexRemove { w with store := .tumble (state.remove e.key) } e.key
        e.value.windowEnd) rfl (ho.remove hg)
        (by simp only [windows, indexRemove] at hsi ⊢; omega) hr rfl
      exact ⟨o, .cons hg hc ht, rfl, hl⟩

theorem flushTumbleEnds_ok {ends : List ℤ} (hc : ∀ stop ∈ ends, stop ≤ cut) (hs : w.store = .tumble state)
    (ho : (w.windows state).Indexed) (h : flushTumbleEnds ends w = (rows, w')) :
    ∃ o, Takes w.toWindowConfig cut (w.windows state) rows o ∧ w' = w.withWindows state o ∧
      ∀ k e, o.entries.get? k = some e → e.value.windowEnd ∉ ends := by
  induction ends generalizing w state rows with
  | nil =>
    obtain ⟨rfl, rfl⟩ : [] = rows ∧ w = w' := by simpa [flushTumbleEnds] using h
    exact ⟨_, .nil _, by rw [withWindows, windows, ← hs], by simp⟩
  | cons stop rest ih =>
    rw [flushTumbleEnds] at h
    generalize hon : flushEnd stop _ w = one at h
    obtain ⟨first, w₁⟩ := one
    obtain ⟨o₁, ht₁, rfl, hl₁⟩ := flushEnd_ok (hc stop mem_cons_self) hs ho le_rfl hon
    dsimp only at h
    generalize hr : flushTumbleEnds rest _ = others at h
    obtain ⟨more, w₂⟩ := others
    obtain ⟨rfl, rfl⟩ : first ++ more = rows ∧ w₂ = w' := by simpa using h
    obtain ⟨o, ht, rfl, hl⟩ := ih (w := w.withWindows state o₁) (fun stop hst => hc stop (mem_cons_of_mem _ hst))
      rfl (ht₁.indexed ho) hr
    refine ⟨o, ht₁.trans ht, rfl, fun k e he hm => ?_⟩
    obtain heq | hm := List.mem_cons.mp hm
    · exact hl₁ k e (ht.sub he) heq
    · exact hl k e he hm

theorem timers_fireDue (timers : BoundedTimers) (now : ℤ) :
    (∀ stop ∈ (timers.fireDue now).1, stop ≤ now) ∧ ∀ stop, timers.live.get? stop = some () →
        stop ∈ (timers.fireDue now).1 ∨ (now < stop ∧ (timers.fireDue now).2.live.get? stop = some ()) := by
  constructor
  · intro stop hs
    obtain ⟨e, he, rfl⟩ := List.mem_map.mp hs
    simpa using mem_takeWhile_imp he
  · intro stop hs
    have hm := mem_entries_iff.mpr hs
    rw [← takeWhile_append_dropWhile (p := fun e => decide (e.1 ≤ now)) (l := timers.live.entries),
      mem_append] at hm
    have hd : timers.live.entries.dropWhile (fun e => decide (e.1 ≤ now)) =
        timers.live.entries.filter fun e => !decide (e.1 ≤ now) :=
      dropWhile_eq_filter timers.live.sorted fun a _ b _ hab hb => by
        simp only [decide_eq_true_eq] at hb ⊢
        exact hab.le.trans hb
    obtain h | h := hm
    · exact .inl (List.mem_map.mpr ⟨_, h, rfl⟩)
    · refine .inr ⟨?_, mem_entries_iff.mp h⟩
      rw [hd] at h
      simpa using (List.mem_filter.mp h).2

/-- The reading a call works with: a hopping window does not go back. -/
def reading (w : WindowOperator) (now : ℤ) : ℤ := (w.hoppingNow now).1

theorem hoppingNow_eq (w : WindowOperator) (now : ℤ) :
    ∃ high, w.hoppingNow now = (w.reading now, { w with hoppingClockHigh := high }) ∧
      (w.spec.kind.isPtHopping = true → 0 ≤ now → high = max w.hoppingClockHigh now) := by
  unfold reading hoppingNow
  split_ifs with hh
  · exact ⟨_, rfl, fun _ _ => rfl⟩
  · exact ⟨w.hoppingClockHigh, rfl, fun h hn => absurd ⟨hn, h⟩ hh⟩

/-- **A clock reading** takes the windows that end by it, and leaves none of them. -/
theorem fireDue_ok (hk : w.spec.kind.usesEventTime = false) (hs : w.store = .tumble state)
    (ho : (w.windows state).Indexed) (hti : (w.windows state).Timed w.timers) (h : w.fireDue now = (rows, w')) :
    ∃ o timers high, Takes w.toWindowConfig (w.reading now) (w.windows state) rows o ∧
      w' = { w.withWindows state o with timers, hoppingClockHigh := high } ∧ o.Timed timers ∧
      o.OpenAt (w.reading now) ∧ (w.spec.kind.isPtHopping = true → 0 ≤ now → high = max w.hoppingClockHigh now) := by
  obtain ⟨high, hno, hh⟩ := w.hoppingNow_eq now
  obtain ⟨hd, hl⟩ := timers_fireDue w.timers (w.reading now)
  unfold fireDue at h
  simp only [hno, hk, Bool.false_eq_true, if_false] at h
  have hf : flushTumbleEnds (w.timers.fireDue (w.reading now)).1
      { w with hoppingClockHigh := high, timers := (w.timers.fireDue (w.reading now)).2 } = (rows, w') := by
    split_ifs at h with hn
    · rw [hn]
      exact h
    · exact h
  obtain ⟨o, ht, rfl, hg⟩ := flushTumbleEnds_ok
    (w := { w with hoppingClockHigh := high, timers := (w.timers.fireDue (w.reading now)).2 }) hd hs ho hf
  have hop : ∀ k e, o.entries.get? k = some e → w.reading now < e.value.windowEnd ∧
      (w.timers.fireDue (w.reading now)).2.live.get? e.value.windowEnd = some () := fun k e he =>
    (hl _ (hti k e (ht.sub he))).resolve_left (hg k e he)
  exact ⟨o, _, high, ht, rfl, fun k e he => (hop k e he).2, fun k e he => (hop k e he).1, hh⟩

/-! ### A row -/

theorem openWindow_timer (w : WindowOperator) (leases : Leases) (i : ℕ) (state : MemoryState TumbleEntry)
    (key : List Scalar) (start stop : ℤ) : w.openWindow leases i state key start stop true =
      match w.openWindow leases i state key start stop false with
      | (.error e, w) => (.error e, w)
      | (.ok (), w) => w.scheduleEnd stop := by
  unfold openWindow
  cases w.emptyAccs with
  | error e => rfl
  | ok accs =>
    dsimp only
    cases state.put (leases (.entry i)) key { windowStart := start, windowEnd := stop, accs } with
    | error e => rfl
    | ok state => cases leases (.index i) <;> rfl

theorem scheduleEnd_ok (h : w.scheduleEnd stop = (.ok (), w')) :
    ∃ timers, w' = { w with timers } ∧ timers.live = w.timers.live.insert stop () := by
  unfold scheduleEnd at h
  cases hs : w.timers.schedule stop with
  | error e => simp [hs] at h
  | ok timers =>
    obtain rfl : { w with timers } = w' := by simpa [hs] using h
    replace hs := after_check hs
    exact ⟨timers, rfl, by rw [← Except.ok.inj hs]⟩

/-- **A window for a row** is there with its end among the timers. -/
theorem ensureWindow_timed (hs : w.store = .tumble state) (ht : (w.windows state).Timed w.timers)
    (h : w.ensureWindow leases i key start stop true = (.ok (), w')) :
    ∃ old index timers, Opens w.toWindowConfig (w.windows state) key start stop old index ∧
      w' = { w.withWindows state ⟨state.entries.insert (encodeKeyValues key) old, index⟩ with timers } ∧
      Timed ⟨state.entries.insert (encodeKeyValues key) old, index⟩ timers := by
  simp only [ensureWindow, hs] at h
  by_cases hso : (state.get? key).isSome
  · rw [if_pos hso] at h
    have hf : w.ensureWindow leases i key start stop false = (.ok (), w') := by
      simp only [ensureWindow, hs, hso, if_true]
      exact h
    obtain rfl : w = w' := by simpa using h
    obtain ⟨old, index, ho, heq⟩ := ensureWindow_ok hs hf
    refine ⟨old, index, w.timers, ho, heq, fun k e he => ht k e ?_⟩
    have hen : state.entries = state.entries.insert (encodeKeyValues key) old := by
      have := hs.symm.trans (congrArg WindowOperator.store heq)
      exact congrArg MemoryState.entries (WindowStore.tumble.inj this)
    rw [windows, hen]
    exact he
  · rw [if_neg hso, openWindow_timer] at h
    generalize hop : w.openWindow leases i state key start stop false = opened at h
    obtain ⟨r, w₁⟩ := opened
    cases r with
    | error e => simp at h
    | ok u =>
      have hf : w.ensureWindow leases i key start stop false = (.ok (), w₁) := by
        simp only [ensureWindow, hs, hso, Bool.false_eq_true, if_false]
        exact hop
      obtain ⟨old, index, ho, rfl⟩ := ensureWindow_ok hs hf
      obtain ⟨timers, rfl, hl⟩ := scheduleEnd_ok h
      refine ⟨old, index, timers, ho, rfl, fun k e he => ?_⟩
      rw [hl, get?_insert]
      split_ifs with hst
      · rfl
      · obtain ⟨-, rfl⟩ | ⟨-, he⟩ := get?_insert_eq_some.mp he
        · cases ho with
          | found hg => exact ht _ _ hg
          | fresh => exact absurd rfl hst
        · exact ht k e he

/-- **A row folded into its window**, which has its end among the timers. -/
theorem ensure_foldRow {w₁ : WindowOperator} {j : ℕ} (hs : w.store = .tumble state)
    (ht : (w.windows state).Timed w.timers) (hen : w.ensureWindow leases i key start stop true = (.ok (), w₁))
    (hf : w₁.foldRow leases j key row = (.ok (), w')) :
    ∃ o timers, Fold w.toWindowConfig row key start stop (w.windows state) o ∧ o.Timed timers ∧
      w' = { w.withWindows state o with timers } := by
  obtain ⟨old, index, timers, ho, rfl, ht'⟩ := ensureWindow_timed hs ht hen
  obtain ⟨accs, hu, rfl⟩ := foldRow_ok rfl (get?_insert_self _ _ _) hf
  refine ⟨_, timers, .mk ho hu, fun k e he => ?_, ?_⟩
  · obtain ⟨-, rfl⟩ | ⟨hk, he⟩ := get?_insert_eq_some.mp he
    · exact ht' (encodeKeyValues key) old (get?_insert_self _ _ _)
    · exact ht' k e (by rw [get?_insert_of_ne _ _ hk]; exact he)
  · simp only [withWindows, insert_insert]
    rfl

/-- **The windows of a row**, one after the other, each with its end among the timers. -/
theorem upsertAll_timed {group : List Scalar} {windows : List (ℤ × ℤ)} (hk : w.spec.kind.isPtHopping = true)
    (hs : w.store = .tumble state) (ht : (w.windows state).Timed w.timers)
    (h : w.upsertAll leases group row i windows = (.ok (), w')) :
    ∃ o timers, Folds w.toWindowConfig row group windows (w.windows state) o ∧ o.Timed timers ∧
      w' = { w.withWindows state o with timers } := by
  induction windows generalizing w state i with
  | nil =>
    obtain rfl : w = w' := by simpa [upsertAll] using h
    exact ⟨_, w.timers, .nil _, ht, by rw [withWindows, WindowOperator.windows, ← hs]⟩
  | cons window rest ih =>
    obtain ⟨start, stop⟩ := window
    rw [upsertAll] at h
    rcases ho : w.upsertEtWindow leases i group start stop row with ⟨_ | u, w₂⟩ <;> rw [ho] at h
    · simp at h
    · simp only [upsertEtWindow, hk] at ho
      generalize he : w.ensureWindow leases i (etStateKey group start) start stop true = ensured at ho
      obtain ⟨r, w₁⟩ := ensured
      cases r with
      | error e => simp at ho
      | ok u =>
        obtain ⟨o₁, timers₁, hf, ht₁, rfl⟩ := ensure_foldRow hs ht he ho
        obtain ⟨o, timers, hfo, ht', rfl⟩ := ih (w := { w.withWindows state o₁ with timers := timers₁ })
          hk rfl ht₁ h
        exact ⟨o, timers, .cons hf hfo, ht', rfl⟩

/-! ### A row of a tumbling window -/

/-- The window under a key, if it is not the one that starts at `start`, is taken for the
columns `key`. -/
def Rotates (o : OpenWindows) (key : List Scalar) (start : ℤ) (rows : List Row) (o' : OpenWindows) : Prop :=
  (∃ e, o.entries.get? (encodeKeyValues key) = some e ∧ e.value.windowStart ≠ start ∧
      rows = [resultRow key e.value.windowStart e.value.windowEnd e.value.accs] ∧
      o' = o.remove (encodeKeyValues key) e.value.windowEnd) ∨
    ((∀ e, o.entries.get? (encodeKeyValues key) = some e → e.value.windowStart = start) ∧ rows = [] ∧ o' = o)

theorem evictIf_cases {p : TumbleEntry → Bool} (hs : w.store = .tumble state) (h : w.evictIf key p = (rows, w')) :
    (∃ e, state.entries.get? (encodeKeyValues key) = some e ∧ p e.value = true ∧
        rows = [resultRow key e.value.windowStart e.value.windowEnd e.value.accs] ∧
        w' = w.withWindows state ((w.windows state).remove (encodeKeyValues key) e.value.windowEnd)) ∨
      ((∀ e, state.entries.get? (encodeKeyValues key) = some e → p e.value = false) ∧ rows = [] ∧ w = w') := by
  simp only [evictIf, hs, MemoryState.get?] at h
  cases hg : state.entries.get? (encodeKeyValues key) with
  | none =>
    simp only [hg, Option.map_none, Prod.mk.injEq] at h
    exact .inr ⟨by rintro _ ⟨⟩, h.1.symm, h.2⟩
  | some e =>
    simp only [hg, Option.map_some] at h
    split_ifs at h with hp
    · simp only [evictWindow, Prod.mk.injEq] at h
      exact .inl ⟨e, rfl, hp, h.1.symm, h.2.symm⟩
    · simp only [Prod.mk.injEq] at h
      refine .inr ⟨?_, h.1.symm, h.2⟩
      rintro _ ⟨⟩
      simpa using hp

theorem ensureWindow_some {timer : Bool} {e : Stored TumbleEntry} (hs : w.store = .tumble state)
    (hg : state.entries.get? (encodeKeyValues key) = some e) :
    w.ensureWindow leases i key start stop timer = (.ok (), w) := by
  simp [ensureWindow, hs, MemoryState.get?, hg]

/-- Where the window under the key is the row's, or there is none, the row is folded into it and
nothing is taken. -/
theorem fold_kept {w₁ w₂ w₃ : WindowOperator} {rotated : List Row} (hs : w.store = .tumble state)
    (ht : (w.windows state).Timed w.timers)
    (hsa : ∀ e, state.entries.get? (encodeKeyValues key) = some e → e.value.windowStart = start)
    (hen : w.ensureWindow leases 0 key start stop true = (.ok (), w₁))
    (hev : w₁.evictIf key (fun e => e.windowStart ≠ start) = (rotated, w₂))
    (ha : w₂.ensureWindow leases 1 key start stop true = (.ok (), w₃))
    (hf : w₃.foldRow leases 0 key row = (.ok (), w')) :
    rotated = [] ∧ ∃ o timers, Fold w.toWindowConfig row key start stop (w.windows state) o ∧ o.Timed timers ∧
      w' = { w.withWindows state o with timers } := by
  obtain ⟨old, index, timers, ho, hw₁, -⟩ := ensureWindow_timed hs ht hen
  have hst : old.value.windowStart = start := by
    cases ho with
    | found hg => exact hsa old hg
    | fresh => rfl
  have hs₁ : w₁.store = .tumble { state with entries := state.entries.insert (encodeKeyValues key) old } := by
    rw [hw₁]
    rfl
  have hg₁ := get?_insert_self state.entries (encodeKeyValues key) old
  obtain ⟨e, he, hne, -⟩ | ⟨-, hn, rfl⟩ := evictIf_cases hs₁ hev
  · obtain rfl : old = e := by simpa using hg₁.symm.trans he
    simp [hst] at hne
  · rw [ensureWindow_some hs₁ hg₁] at ha
    obtain rfl : w₁ = w₃ := by simpa using ha
    exact ⟨hn, ensure_foldRow hs ht hen hf⟩

theorem onTumbleRow_steps {size : Int64} (h : w.onTumbleRow leases row now size = (.ok rows, w')) :
    ∃ start stop stale rotated w₀ w₁ w₂ w₃, assignTumble now size = .ok (start, stop) ∧
      w.evictIf (w.groupKey row) (fun e => e.windowEnd ≤ now ∧ e.windowStart ≠ start) = (stale, w₀) ∧
      w₀.ensureWindow leases 0 (w.groupKey row) start stop true = (.ok (), w₁) ∧
      w₁.evictIf (w.groupKey row) (fun e => e.windowStart ≠ start) = (rotated, w₂) ∧
      w₂.ensureWindow leases 1 (w.groupKey row) start stop true = (.ok (), w₃) ∧
      w₃.foldRow leases 0 (w.groupKey row) row = (.ok (), w') ∧ rows = stale ++ rotated := by
  unfold onTumbleRow at h
  cases ha : assignTumble now size with
  | error e => simp [ha] at h
  | ok window =>
    simp only [ha] at h
    generalize hs : w.evictIf (w.groupKey row) _ = evicted at h
    generalize he : evicted.2.ensureWindow leases 0 _ _ _ true = ensured at h
    obtain ⟨_ | u, w₁⟩ := ensured
    · simp at h
    dsimp only at h
    generalize hr : w₁.evictIf (w.groupKey row) _ = turned at h
    generalize hag : turned.2.ensureWindow leases 1 _ _ _ true = again at h
    obtain ⟨_ | u, w₃⟩ := again
    · simp at h
    dsimp only at h
    generalize hf : w₃.foldRow leases 0 (w.groupKey row) row = folded at h
    obtain ⟨_ | u, w₄⟩ := folded
    · simp [Except.map] at h
    obtain ⟨rfl, rfl⟩ : evicted.1 ++ turned.1 = rows ∧ w₄ = w' := by simpa [Except.map] using h
    exact ⟨window.1, window.2, evicted.1, turned.1, evicted.2, w₁, turned.2, w₃, rfl, hs, he, hr, hag,
      hf, rfl⟩

/-- **A row of a tumbling window.** A window of the key that is not the row's is taken, whether
it is over or the clock has gone back; then the row is folded into its own. -/
theorem onTumbleRow_ok {size : Int64} (hs : w.store = .tumble state) (ht : (w.windows state).Timed w.timers)
    (h : w.onTumbleRow leases row now size = (.ok rows, w')) :
    ∃ start stop o₁ o timers, assignTumble now size = .ok (start, stop) ∧
      Rotates (w.windows state) (w.groupKey row) start rows o₁ ∧
      Fold w.toWindowConfig row (w.groupKey row) start stop o₁ o ∧ o.Timed timers ∧
      w' = { w.withWindows state o with timers } := by
  obtain ⟨start, stop, stale, rotated, w₀, w₁, w₂, w₃, hass, hst, hen, hr, ha, hf, rfl⟩ :=
    onTumbleRow_steps h
  obtain ⟨e, hg, hp, rfl, rfl⟩ | ⟨-, rfl, rfl⟩ := evictIf_cases hs hst
  · -- the window is over, and its key is free after it
    have hne : e.value.windowStart ≠ start := by simpa using (of_decide_eq_true hp).2
    obtain ⟨rfl, o, timers, ho, ht', rfl⟩ := fold_kept
      (w := w.withWindows state ((w.windows state).remove (encodeKeyValues (w.groupKey row)) e.value.windowEnd)) rfl
      (ht.remove _ _) (fun e he => by simp [OpenWindows.remove, get?_erase] at he)
      hen hr ha hf
    exact ⟨start, stop, _, o, timers, hass, .inl ⟨e, hg, hne, by simp, rfl⟩, ho, ht', rfl⟩
  · by_cases hot : ∃ e, state.entries.get? (encodeKeyValues (w.groupKey row)) = some e ∧ e.value.windowStart ≠ start
    · -- the clock has gone back
      obtain ⟨e, hg, hne⟩ := hot
      rw [ensureWindow_some hs hg] at hen
      obtain rfl : w = w₁ := by simpa using hen
      obtain ⟨e', hg', -, rfl, rfl⟩ | ⟨hn, -, -⟩ := evictIf_cases hs hr
      · obtain rfl : e = e' := by simpa [hg] using hg'
        obtain ⟨o, timers, ho, ht', rfl⟩ := ensure_foldRow
          (w := w.withWindows state ((w.windows state).remove (encodeKeyValues (w.groupKey row)) e.value.windowEnd)) rfl
          (ht.remove _ _) ha hf
        exact ⟨start, stop, _, o, timers, hass, .inl ⟨e, hg, hne, by simp, rfl⟩, ho, ht', rfl⟩
      · have := hn e hg
        simp [hne] at this
    · have hsa : ∀ e, state.entries.get? (encodeKeyValues (w.groupKey row)) = some e → e.value.windowStart = start := by
        simpa using hot
      obtain ⟨rfl, o, timers, ho, ht', rfl⟩ := fold_kept hs ht hsa hen hr ha hf
      exact ⟨start, stop, _, o, timers, hass, .inr ⟨hsa, by simp, rfl⟩, ho, ht', rfl⟩

end WindowOperator

end Sparrow.Runtime
