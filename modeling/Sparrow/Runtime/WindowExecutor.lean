import Sparrow.Runtime.WindowSteps

/-!
# The executor of a window

The task that drives a tumbling, hopping or count window (`window_stage` and `emit_window` in
`kernel.rs`). A batch is handed over row by row; what it makes due is taken in chunks
and sent, then the output watermark advances, then it is sent. A watermark, idle or active control
does the same, and a processing-time window is drained at the clock before each batch
and when a timer fires.

The task without a graph clock is modelled, with a reader that takes what is sent.
Metrics, cancellation and barriers, which change nothing, are left out. Loops run until a chunk is
empty; they take a bound on their number of rounds, which the index provides.

## What is proved

* `drain_ok` — a drain takes closed windows until none is left.
* `closeAt_ok`, `emitWindow_ok` — what an event-time window emits.
-/

namespace Sparrow.Runtime

open Library Model Plan

/-- What is downstream of the task: how rows are cut into batches, and the credit for them. -/
structure Downstream where
  maxItems : ℕ
  maxBytes : ℕ
  sizes : Sizes
  rowBytes : Row → ℕ
  leases : ℕ → Leases

namespace WindowOperator

/-- What the task receives. -/
inductive Input where
  | batch (rows : List Row) (now : ℤ) (leases : ℕ → Leases)
  | watermark (id : InputId) (wm : ℤ)
  | idle (id : InputId)
  | active (id : InputId)
  | finish
  | tick (now : ℤ)

/-- What the task does, in order. -/
inductive Report where
  /-- A row was taken at a clock reading, with `out` as output watermark. -/
  | row (row : Row) (now : ℤ) (out : Option ℤ)
  | late (row : Row)
  /-- Final rows were sent, with `wmIn` as input watermark. -/
  | finals (rows : List Row) (wmIn : Option ℤ)
  | watermark (wm : ℤ)

/-! ### The loops -/

/-- Take chunks until one is empty, for at most `n` rounds. -/
def drainFor (d : Downstream) (cut : ℤ) : ℕ → WindowOperator → Result (List RowBatch × WindowOperator)
  | 0, w => .ok ([], w)
  | n + 1, w =>
    match w.takeClosedBatch d.sizes (d.leases n) cut d.maxItems d.maxBytes with
    | (.error e, _) => .error e
    | (.ok none, w) => .ok ([], w)
    | (.ok (some batch), w) => (drainFor d cut n w).map fun (rest, w) => (batch :: rest, w)

variable (w : WindowOperator) (d : Downstream)

def drain (cut : ℤ) : Result (List RowBatch × WindowOperator) :=
  drainFor d cut (w.closedIndex.size + 1) w

/-- Cut rows into chunks; `chunk` of `bytes` bytes is the one being filled. -/
def chunkRows (d : Downstream) : List Row → ℕ → List Row → List (List Row)
  | chunk, _, [] => [chunk]
  | chunk, bytes, row :: rest =>
    let size := satAdd (d.rowBytes row) 64
    if chunk ≠ [] ∧ (chunk.length ≥ max d.maxItems 1 ∨ satAdd bytes size > max d.maxBytes 1) then
      chunk :: chunkRows d [row] size rest
    else chunkRows d (chunk ++ [row]) (satAdd bytes size) rest

/-- `build_rows_chunked`. -/
def buildRowsChunked (rows : List Row) : Result (List RowBatch) :=
  Except.map (·.filterMap id) ((chunkRows d [] 0 rows).mapM (w.buildMeteredBatch (d.leases 0)))

/-- Close the windows at a watermark, then advance the output watermark. -/
def closeAt (wm : ℤ) : Result (List Report × WindowOperator) := do
  let (batches, w) ← w.drain d wm
  let reports := batches.map fun b => Report.finals b.rows w.wmIn
  match w.advanceHoldback wm with
  | (.error e, _) => .error e
  | (.ok (), w) => return (reports ++ [.watermark wm], w)

/-- `emit_window`. -/
def emitWindow (out : WindowEmission) : Result (List Report × WindowOperator) := do
  let finals ← w.buildRowsChunked d out.finals
  let sent := out.lates.map .late ++ finals.map fun b => Report.finals b.rows w.wmIn
  match out.pendingClose with
  | none => return (sent, w)
  | some wm => (w.closeAt d wm).map fun (closed, w) => (sent ++ closed, w)

/-- `emit_due`. -/
def emitDue (now : ℤ) : Result (List Report × WindowOperator) :=
  match w.beginDue now with
  | (false, w) => .ok ([], w)
  | (true, w) => (w.drain d now).map fun (batches, w) => (batches.map fun b => .finals b.rows w.wmIn, w)

def emitted : Result WindowEmission × WindowOperator → Result (List Report × WindowOperator)
  | (.error e, _) => .error e
  | (.ok out, w) => w.emitWindow d out

def step (w : WindowOperator) : Input → Result (List Report × WindowOperator)
  | .batch rows now leases => do
    let (due, w) ← w.emitDue d now
    let (sent, w') ← emitted d (w.onBatchWithoutTimers leases rows now)
    return (due ++ rows.map (.row · now w.wmOut) ++ sent, w')
  | .watermark id wm => emitted d (w.observeWatermark id wm)
  | .idle id => emitted d (w.markIdle id)
  | .active id => emitted d (w.markActive id)
  | .finish => emitted d w.finishInput
  | .tick now => w.emitDue d now

def run (w : WindowOperator) (inputs : List Input) : Result (List Report × WindowOperator) :=
  Machine.runOk (step d) w inputs

/-! ### What they do to an event-time window -/

open OpenWindows

section EventTime

variable {w w' : WindowOperator} {d : Downstream} {state : MemoryState TumbleEntry} {cut : ℤ}
  {batches : List RowBatch}

theorem drainFor_ok {n : ℕ} (het : w.spec.kind.usesEventTime = true)
    (hst : w.store = .tumble state) (ho : (w.windows state).Indexed) (hn : w.closedIndex.size < n)
    (h : drainFor d cut n w = .ok (batches, w')) :
    ∃ o, Takes w.toWindowConfig cut (w.windows state) (batches.flatMap RowBatch.rows) o ∧
      w' = w.withWindows state o ∧ o.OpenAt cut := by
  induction n generalizing w state batches w' with
  | zero => omega
  | succ n ih =>
    rw [drainFor] at h
    cases hb : w.takeClosedBatch d.sizes (d.leases n) cut d.maxItems d.maxBytes with
    | mk r w₁ =>
      rw [hb] at h
      cases r with
      | error e => simp at h
      | ok batch =>
        obtain ⟨o, ht, rfl, hop, hro⟩ := takeClosedBatch_ok het hst ho hb
        cases batch with
        | none =>
          obtain ⟨rfl, rfl⟩ : [] = batches ∧ _ = w' := by simpa using h
          exact ⟨o, ht, rfl, hop rfl⟩
        | some b =>
          -- a chunk is not empty, so that the index gets smaller
          have hs := ht.size ho
          have hp := List.length_pos_iff.mpr (hro b rfl)
          obtain ⟨⟨rest, w₂⟩, hr, ⟨⟩⟩ := map_eq_ok.mp h
          obtain ⟨o', ht', rfl, ho'⟩ := ih (w := w.withWindows state o) het rfl (ht.indexed ho)
            (by simp only [windows, withWindows, Option.elim_some] at hs ⊢; omega) hr
          exact ⟨o', ht.trans ht', rfl, ho'⟩

/-- **A drain takes closed windows until none is left.** -/
theorem drain_ok (het : w.spec.kind.usesEventTime = true)
    (hs : w.store = .tumble state) (ho : (w.windows state).Indexed)
    (h : w.drain d cut = .ok (batches, w')) :
    ∃ o, Takes w.toWindowConfig cut (w.windows state) (batches.flatMap RowBatch.rows) o ∧
      w' = w.withWindows state o ∧ o.OpenAt cut :=
  drainFor_ok het hs ho (Nat.lt_succ_self _) h

variable {reports : List Report} {h : OutputHoldback}

theorem closeAt_ok (het : w.spec.kind.usesEventTime = true)
    (hs : w.store = .tumble state) (ho : (w.windows state).Indexed) (hh : w.holdback = some h)
    (hc : w.closeAt d cut = .ok (reports, w')) : ∃ (o : OpenWindows) (batches : List RowBatch),
      Takes w.toWindowConfig cut (w.windows state) (batches.flatMap RowBatch.rows) o ∧
      o.OpenAt cut ∧ reports = batches.map (fun b => .finals b.rows h.wmIn) ++ [.watermark cut] ∧
      w' = { w.withWindows state o with holdback := some { h with wmOut := some cut } } := by
  obtain ⟨⟨batches, w₁⟩, hd, hc⟩ := bind_eq_ok.mp hc
  obtain ⟨o, ht, rfl, hop⟩ := drain_ok het hs ho hd
  have hh' : (w.withWindows state o).holdback = some h := hh
  simp only [advanceHoldback, hh', wmIn, Option.bind_some] at hc
  cases ha : h.advanceOut cut with
  | error e => simp [ha] at hc
  | ok h' =>
    obtain rfl := OutputHoldback.advanceOut_eq_ok ha
    simp only [ha] at hc
    cases hc
    exact ⟨o, batches, ht, hop, rfl, rfl⟩

variable {out : WindowEmission}

theorem emitWindow_ok (hf : out.finals = []) (h : w.emitWindow d out = .ok (reports, w')) :
    (out.pendingClose = none ∧ reports = out.lates.map .late ∧ w' = w) ∨
      ∃ wm closed, out.pendingClose = some wm ∧ w.closeAt d wm = .ok (closed, w') ∧
        reports = out.lates.map .late ++ closed := by
  obtain ⟨finals, hb, h⟩ := bind_eq_ok.mp h
  -- there is nothing to cut into batches
  obtain rfl : [] = finals := by
    simpa [buildRowsChunked, hf, chunkRows, WindowConfig.buildMeteredBatch, Except.map, pure,
      Except.pure, bind, Except.bind] using hb
  rw [List.map_nil, List.append_nil] at h
  cases hp : out.pendingClose with
  | none =>
    simp only [hp, pure, Except.pure, Except.ok.injEq, Prod.mk.injEq] at h
    exact .inl ⟨rfl, h.1.symm, h.2.symm⟩
  | some wm =>
    simp only [hp] at h
    obtain ⟨⟨closed, w₁⟩, hc, ⟨⟩⟩ := map_eq_ok.mp h
    exact .inr ⟨wm, closed, rfl, hc, rfl⟩

theorem emitDue_ok {now : ℤ} (het : w.spec.kind.usesEventTime = true) : w.emitDue d now = .ok ([], w) := by
  simp [emitDue, beginDue, hoppingNow, WindowKind.not_isPtHopping het, het]

theorem emitted_ok {r : Result WindowEmission × WindowOperator}
    (h : emitted d r = .ok (reports, w')) :
    ∃ out w₁, r = (.ok out, w₁) ∧ w₁.emitWindow d out = .ok (reports, w') := by
  obtain ⟨r, w₁⟩ := r
  cases r with
  | error e => simp [emitted] at h
  | ok out => exact ⟨out, w₁, rfl, h⟩

theorem onHub_ok {call : WatermarkHub → Result (Option ℤ) × WatermarkHub} (hh : w.holdback = some h)
    (hc : w.onHub call = (.ok out, w')) :
    ∃ pending h', Advances (call w.hub).2 h pending h' ∧ out = { WindowEmission.none with pendingClose := pending } ∧
      w' = { w with hub := (call w.hub).2, holdback := some h' } := by
  unfold onHub at hc
  rcases hr : call w.hub with ⟨_ | _, hub⟩ <;> rw [hr] at hc
  · simp at hc
  · obtain ⟨pending, h', ha, rfl, rfl⟩ := drainWatermark_ok (w := { w with hub }) hh hc
    exact ⟨pending, h', ha, rfl, rfl⟩

end EventTime

end WindowOperator

end Sparrow.Runtime
