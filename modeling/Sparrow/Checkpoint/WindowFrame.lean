import Sparrow.Checkpoint.WindowFreeze
import Sparrow.Runtime.WindowExecutor

/-!
# What the calls of a window leave alone

Event-time and count windows use no timers, and whatever happens to their store, it stays one
that a freeze can be taken of: entries under the bytes of their keys, within the bound.
-/

namespace Sparrow.Runtime

open Library Model Plan

namespace MemoryState

variable {V : Type} {s s' : MemoryState V}

theorem Sound.put {lease : Result Unit} {key : List Scalar} {value : V} (hp : s.put lease key value = .ok s') :
    ({ s' with entries := .empty } : MemoryState V) = { s with entries := .empty } ∧ (s.Sound → s'.Sound) := by
  obtain ⟨hr, hp⟩ := guard_eq_ok.mp hp
  replace hp := after_check hp
  cases hp
  refine ⟨rfl, fun hs => ⟨fun {k e} he => ?_, ?_⟩⟩
  · obtain ⟨hk, rfl⟩ | ⟨-, he⟩ := SortedMap.get?_insert_eq_some.mp he
    · cases hold : s.entries.get? (encodeKeyValues key) with
      | none => exact hk.symm
      | some old => exact (hs.keyed hold).trans hk.symm
    · exact hs.keyed he
  · have hr := hr
    cases hold : s.entries.get? (encodeKeyValues key) with
    | none =>
      have hle := s.entries.size_insert_le (encodeKeyValues key) { key := key, value := value }
      simp only [hold, Option.isNone_none, true_and] at hr
      exact hle.trans (Nat.succ_le_of_lt (not_le.mp hr))
    | some old => exact (SortedMap.size_insert_of_some hold _).le.trans hs.bounded

theorem Sound.set (hs : s.Sound) (key : List Scalar) (value : V) : (s.set key value).Sound := by
  refine ⟨fun {k e} he => ?_, by simpa [MemoryState.set] using hs.bounded⟩
  simp only [MemoryState.set, SortedMap.get?_modify] at he
  split_ifs at he
  · obtain ⟨old, hold, rfl⟩ := Option.map_eq_some_iff.mp he
    have hk := hs.keyed hold
    exact hk
  · exact hs.keyed he

theorem Sound.remove (hs : s.Sound) (key : List Scalar) : (s.remove key).Sound := by
  refine ⟨fun {k e} he => ?_, (s.entries.size_erase_le _).trans hs.bounded⟩
  exact hs.keyed (SortedMap.get?_erase_eq_some.mp he).2

end MemoryState

namespace WindowOperator

/-- `w'` has the timers of `w`, and its store is sound if that of `w` is. -/
structure Frame (w w' : WindowOperator) : Prop where
  config : w'.toWindowConfig = w.toWindowConfig
  timers : w'.timers = w.timers
  clock : w'.hoppingClockHigh = w.hoppingClockHigh
  cleared : w'.store.cleared = w.store.cleared
  sound : w.store.Sound → w'.store.Sound

namespace Frame

theorem refl (w : WindowOperator) : Frame w w := ⟨rfl, rfl, rfl, rfl, id⟩

theorem trans {w w' w'' : WindowOperator} (h : Frame w w') (h' : Frame w' w'') : Frame w w'' :=
  ⟨h'.config.trans h.config, h'.timers.trans h.timers, h'.clock.trans h.clock, h'.cleared.trans h.cleared,
    fun hs => h'.sound (h.sound hs)⟩

end Frame

section Rows

variable {w : WindowOperator} {leases : Leases}

theorem openWindow_frame {i : ℕ} {state : MemoryState TumbleEntry} (hs : w.store = .tumble state)
    (key : List Scalar) (start stop : ℤ) :
    Frame w (w.openWindow leases i state key start stop false).2 := by
  unfold openWindow
  cases w.emptyAccs with
  | error e => exact .refl w
  | ok accs =>
    dsimp only
    cases hp : state.put (leases (.entry i)) key { windowStart := start, windowEnd := stop, accs } with
    | error e => exact .refl w
    | ok state' =>
      obtain ⟨hc, hso⟩ := MemoryState.Sound.put hp
      have hf : ∀ index, Frame w { w with store := .tumble state', closedIndex := index } := fun index =>
        ⟨rfl, rfl, rfl, by rw [hs]; exact congrArg WindowStore.tumble hc, by rw [hs]; exact hso⟩
      cases leases (.index i) with
      | error e | ok u => exact hf _

theorem ensureWindow_frame (i : ℕ) (key : List Scalar) (start stop : ℤ) :
    Frame w (w.ensureWindow leases i key start stop false).2 := by
  unfold ensureWindow
  cases hs : w.store with
  | count s => exact .refl w
  | tumble s =>
    dsimp only
    split_ifs
    · exact .refl w
    · exact openWindow_frame hs ..

theorem foldRow_frame (i : ℕ) (key : List Scalar) (row : Row) : Frame w (w.foldRow leases i key row).2 := by
  unfold foldRow
  cases hst : w.store with
  | count s => exact .refl w
  | tumble s =>
    dsimp only
    cases s.get? key with
    | none => exact .refl w
    | some entry => exact ⟨rfl, rfl, rfl, by rw [hst]; rfl, fun hs => by rw [hst] at hs; exact hs.set ..⟩

theorem upsertEtWindow_frame (hpt : w.spec.kind.isPtHopping = false) (i : ℕ) (group : List Scalar) (start stop : ℤ)
    (row : Row) : Frame w (w.upsertEtWindow leases i group start stop row).2 := by
  have he : Frame w (w.ensureWindow leases i (etStateKey group start) start stop false).2 :=
    ensureWindow_frame i (etStateKey group start) start stop
  simp only [upsertEtWindow, hpt]
  cases hr : w.ensureWindow leases i (etStateKey group start) start stop false with
  | mk r w₁ =>
    rw [hr] at he
    cases r with
    | error e => exact he
    | ok u => exact he.trans (foldRow_frame ..)

theorem upsertAll_frame (hpt : w.spec.kind.isPtHopping = false) (group : List Scalar) (row : Row) (i : ℕ)
    (windows : List (ℤ × ℤ)) : Frame w (w.upsertAll leases group row i windows).2 := by
  induction windows generalizing w i with
  | nil => exact .refl w
  | cons window rest ih =>
    have ho : Frame w (w.upsertEtWindow leases i group window.1 window.2 row).2 :=
      upsertEtWindow_frame hpt i group window.1 window.2 row
    rw [upsertAll]
    rcases hr : w.upsertEtWindow leases i group window.1 window.2 row with ⟨_ | _, w₁⟩ <;> rw [hr] at ho
    · exact ho
    · exact ho.trans (ih (by rw [ho.config]; exact hpt) (i + 1))

theorem drainWatermark_frame : Frame w w.drainWatermark.2 := by
  unfold drainWatermark
  cases w.holdback with
  | none => exact .refl w
  | some h => cases w.hub.progress <;> exact ⟨rfl, rfl, rfl, rfl, id⟩

theorem onEtRow_frame (hpt : w.spec.kind.isPtHopping = false) (row : Row) (now : ℤ) (size : Int64)
    (slide : Option Int64) : Frame w (w.onEtRow leases row now size slide).2 := by
  unfold onEtRow
  cases w.rowEventTime row with
  | error e => exact .refl w
  | ok ts =>
    dsimp only
    split_ifs
    · exact .refl w
    · have ho : Frame w (w.observeRow ts now).2 := by
        unfold observeRow
        split_ifs <;> exact ⟨rfl, rfl, rfl, rfl, id⟩
      cases hr : w.observeRow ts now with
      | mk r w₁ =>
        rw [hr] at ho
        have hp₁ : w₁.spec.kind.isPtHopping = false := by rw [ho.config]; exact hpt
        cases r with
        | error e => exact ho
        | ok u =>
          dsimp only
          cases w₁.assigned ts size slide with
          | error e => exact ho
          | ok windows =>
            have ha : Frame w₁ (w₁.upsertAll leases (w₁.groupKey row) row 0 (stillOpen w₁.wmOut windows)).2 :=
              upsertAll_frame hp₁ (w₁.groupKey row) row 0 (stillOpen w₁.wmOut windows)
            dsimp only [foldEtRow]
            cases hr' : w₁.upsertAll leases (w₁.groupKey row) row 0 (stillOpen w₁.wmOut windows) with
            | mk r w₂ =>
              rw [hr'] at ha
              cases r with
              | error e => exact ho.trans ha
              | ok u => exact (ho.trans ha).trans drainWatermark_frame

theorem onCountRow_frame (row : Row) (size : ℕ) : Frame w (w.onCountRow leases row size).2 := by
  unfold onCountRow
  cases hst : w.store with
  | tumble s => exact .refl w
  | count s =>
    have hf : ∀ s' : MemoryState CountEntry,
        ({ s' with entries := .empty } : MemoryState CountEntry) = { s with entries := .empty } →
        (s.Sound → s'.Sound) → Frame w { w with store := .count s' } := fun s' hc hso =>
      ⟨rfl, rfl, rfl, by rw [hst]; exact congrArg WindowStore.count hc, by rw [hst]; exact hso⟩
    dsimp only
    cases he : w.ensureCount leases s (w.groupKey row) with
    | error e => exact .refl w
    | ok s' =>
      have hs' : ({ s' with entries := .empty } : MemoryState CountEntry) = { s with entries := .empty } ∧
          (s.Sound → s'.Sound) := by
        unfold ensureCount at he
        split_ifs at he
        · cases he
          exact ⟨rfl, id⟩
        · obtain ⟨accs, -, hp⟩ := bind_eq_ok.mp he
          exact MemoryState.Sound.put hp
      dsimp only
      cases s'.get? (w.groupKey row) with
      | none => exact hf s' hs'.1 hs'.2
      | some entry =>
        dsimp only
        rcases w.applyRow (leases (.update 0)) row entry.accs with ⟨_ | _, accs⟩
        · exact hf _ hs'.1 fun hs => (hs'.2 hs).set ..
        · dsimp only
          split_ifs
          · exact hf _ hs'.1 fun hs => (hs'.2 hs).remove ..
          · exact hf _ hs'.1 fun hs => (hs'.2 hs).set ..

theorem leaseAgain_frame : Frame w (w.leaseAgain leases).2 := by
  unfold leaseAgain
  split_ifs
  · cases leases .scratch <;> exact ⟨rfl, rfl, rfl, rfl, id⟩
  · exact .refl w

section

variable (hkind : (∃ p, w.spec.kind.etWindow = some p) ∨ ∃ n, w.spec.kind = .count n)

include hkind

/-- **A row leaves the timers alone.** -/
theorem onRow_frame (row : Row) (now : ℤ) : Frame w (w.onRow leases row now).2 := by
  have hpt : w.spec.kind.isPtHopping = false := by
    obtain ⟨p, hp⟩ | ⟨n, hn⟩ := hkind
    · exact WindowKind.not_isPtHopping (WindowKind.usesEventTime_of_etWindow hp)
    · rw [hn]
      rfl
  have hl : Frame w (w.leaseAgain leases).2 := leaseAgain_frame
  simp only [onRow, hoppingNow, hpt, Bool.false_eq_true, and_false, ↓reduceIte]
  rcases hr : w.leaseAgain leases with ⟨_ | _, w₁⟩ <;> rw [hr] at hl
  · exact hl
  · refine hl.trans ?_
    rw [← show w₁.spec = w.spec by rw [hl.config]] at hkind hpt
    obtain ⟨⟨size, slide⟩, hp⟩ | ⟨n, hn⟩ := hkind
    · dsimp only
      rw [onRowKind_et hp]
      exact onEtRow_frame hpt ..
    · dsimp only [onRowKind]
      rw [hn]
      exact onCountRow_frame ..

theorem onRows_frame (leases : ℕ → Leases) (now : ℤ) (i : ℕ) (before : WindowEmission) (rows : List Row) :
    Frame w (w.onRows leases now i before rows).2 := by
  induction rows generalizing w i before with
  | nil => exact .refl w
  | cons row rest ih =>
    have ho : Frame w (w.onRow (leases i) row now).2 := onRow_frame hkind row now
    rw [onRows]
    rcases hr : w.onRow (leases i) row now with ⟨_ | _, w₁⟩ <;> rw [hr] at ho
    · exact ho
    · exact ho.trans (ih (by rw [ho.config]; exact hkind) (i + 1) _)

end

end Rows

section Sending

theorem takeClosedFor_frame (cut : ℤ) (n : ℕ) (w : WindowOperator) : Frame w (takeClosedFor cut n w).2 := by
  induction n generalizing w with
  | zero => exact .refl w
  | succ n ih =>
    -- an index entry without a window is dropped
    have hd : ∀ key, Frame w (takeClosedFor cut n { w with
        closedIndex := w.closedIndex.filter fun e => encodeKeyValues e.2 ≠ encodeKeyValues key }).2 := by
      intro key
      have hr := ih { w with
        closedIndex := w.closedIndex.filter fun e => encodeKeyValues e.2 ≠ encodeKeyValues key }
      exact ⟨hr.config, hr.timers, hr.clock, hr.cleared, hr.sound⟩
    rw [takeClosedFor]
    cases w.nextClosedKey cut with
    | none => exact .refl w
    | some key =>
      cases hst : w.store with
      | count s =>
        have hr := hd key
        rw [hst] at hr
        exact hr
      | tumble s =>
        dsimp only
        cases s.get? key with
        | none =>
          have hr := hd key
          rw [hst] at hr
          exact hr
        | some entry =>
          exact ⟨rfl, rfl, rfl, by rw [hst]; rfl, fun hs => by rw [hst] at hs; exact hs.remove key⟩

theorem takeClosedChunk_frame (sizes : Sizes) (cut : ℤ) (maxBytes n bytes : ℕ) (out : List Row) (w : WindowOperator) :
    Frame w (takeClosedChunk sizes cut maxBytes n bytes out w).2 := by
  induction n generalizing bytes out w with
  | zero => exact .refl w
  | succ n ih =>
    have ho : Frame w (w.takeClosedOne cut).2 := takeClosedFor_frame ..
    rw [takeClosedChunk]
    cases w.peekClosedBytes sizes cut with
    | none => exact .refl w
    | some size =>
      dsimp only
      split_ifs
      · exact .refl w
      · cases hr : w.takeClosedOne cut with
        | mk row w₁ =>
          rw [hr] at ho
          cases row with
          | none => exact ho
          | some row => exact ho.trans (ih ..)

theorem takeClosedBatch_frame (w : WindowOperator) (sizes : Sizes) (leases : Leases) (cut : ℤ)
    (maxRows maxBytes : ℕ) : Frame w (w.takeClosedBatch sizes leases cut maxRows maxBytes).2 := by
  unfold takeClosedBatch
  dsimp only
  split
  · exact .refl w
  · split_ifs
    · exact .refl w
    · cases leases .chunk with
      | error e => exact .refl w
      | ok u => exact takeClosedChunk_frame ..

variable {w w' : WindowOperator} {d : Downstream}

theorem drainFor_frame {cut : ℤ} {n : ℕ} {batches : List RowBatch} (h : drainFor d cut n w = .ok (batches, w')) :
    Frame w w' := by
  induction n generalizing w batches with
  | zero =>
    obtain ⟨-, rfl⟩ : [] = batches ∧ w = w' := by simpa [drainFor] using h
    exact .refl w
  | succ n ih =>
    have ho := takeClosedBatch_frame w d.sizes (d.leases n) cut d.maxItems d.maxBytes
    rw [drainFor] at h
    cases hr : w.takeClosedBatch d.sizes (d.leases n) cut d.maxItems d.maxBytes with
    | mk r w₁ =>
      rw [hr] at h ho
      cases r with
      | error e => simp at h
      | ok batch =>
        cases batch with
        | none =>
          obtain ⟨-, rfl⟩ : [] = batches ∧ w₁ = w' := by simpa using h
          exact ho
        | some b =>
          obtain ⟨⟨rest, w₂⟩, hre, ⟨⟩⟩ := map_eq_ok.mp h
          exact ho.trans (ih hre)

/-- **Nor does what is sent.** -/
theorem emitWindow_frame {out : WindowEmission} {sent : List Report} (h : w.emitWindow d out = .ok (sent, w')) :
    Frame w w' := by
  obtain ⟨finals, -, h⟩ := bind_eq_ok.mp h
  cases hp : out.pendingClose with
  | none =>
    simp only [hp, pure, Except.pure, Except.ok.injEq, Prod.mk.injEq] at h
    rw [← h.2]
    exact .refl w
  | some wm =>
    rw [hp] at h
    obtain ⟨⟨closed, w₁⟩, hc, ⟨⟩⟩ := map_eq_ok.mp h
    obtain ⟨⟨batches, w₂⟩, hd, hc⟩ := bind_eq_ok.mp hc
    refine (drainFor_frame hd).trans ?_
    have ha : Frame w₂ (w₂.advanceHoldback wm).2 := by
      unfold advanceHoldback
      cases w₂.holdback with
      | none => exact .refl w₂
      | some h =>
        dsimp only
        cases h.advanceOut wm <;> exact ⟨rfl, rfl, rfl, rfl, id⟩
    rcases hr : w₂.advanceHoldback wm with ⟨_ | _, w₃⟩ <;> rw [hr] at ha
    · simp [hr] at hc
    · simp only [hr, pure, Except.pure, Except.ok.injEq, Prod.mk.injEq] at hc
      rw [← hc.2]
      exact ha

theorem onHub_frame (call : WatermarkHub → Result (Option ℤ) × WatermarkHub) : Frame w (w.onHub call).2 := by
  unfold onHub
  rcases call w.hub with ⟨_ | _, hub⟩
  · exact ⟨rfl, rfl, rfl, rfl, id⟩
  · have hd := drainWatermark_frame (w := { w with hub })
    exact ⟨hd.config, hd.timers, hd.clock, hd.cleared, hd.sound⟩

end Sending

end WindowOperator

end Sparrow.Runtime
