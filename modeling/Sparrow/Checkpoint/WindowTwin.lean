import Sparrow.Checkpoint.WindowFreeze
import Sparrow.Runtime.SoloHub
import Sparrow.Runtime.WindowBatching

/-!
# Two operators that differ in their hub

An operator and its restored copy differ in the state of the hub's only input, and in whether the
credit for the candidate accumulators has been taken. Folding rows, taking closed windows and
sending them see neither.

## What is proved

* `upsertAll_withClock`, `onCountRow_withClock`, `closeAt_withClock` — operations that do not ask
  the hub do the same to both.
* `onRows_alike`, `onHub_alike`, `Alike.emitted` — so do rows and punctuations, and both send the same.
-/

namespace Sparrow.Runtime

open Library Model Plan WindowOperator

variable {leases : Leases} {row : Row} {now : ℤ} {hub' : WatermarkHub} {external : Bool}

namespace WindowOperator

section WithClock

variable (w : WindowOperator) (hub : WatermarkHub) (scratch : Bool)

/-! ### What does not ask the hub -/

theorem scheduleEnd_withClock (stop : ℤ) :
    (w.withClock hub scratch).scheduleEnd stop = Prod.map id (·.withClock hub scratch)
      (w.scheduleEnd stop) := by
  simp only [scheduleEnd, withClock]
  cases w.timers.schedule stop <;> rfl

variable (leases)

theorem openWindow_withClock (i : ℕ) (state : MemoryState TumbleEntry) (key : List Scalar)
    (start stop : ℤ) (timer : Bool) :
    (w.withClock hub scratch).openWindow leases i state key start stop timer =
      Prod.map id (·.withClock hub scratch) (w.openWindow leases i state key start stop timer) := by
  have ha : (w.withClock hub scratch).emptyAccs = w.emptyAccs := rfl
  rw [openWindow, openWindow, ha]
  cases w.emptyAccs with
  | error e => rfl
  | ok accs =>
    dsimp only
    cases state.put (leases (.entry i)) key { windowStart := start, windowEnd := stop, accs } with
    | error e => rfl
    | ok state =>
      cases leases (.index i) with
      | error e => rfl
      | ok u =>
        cases timer with
        | false => rfl
        | true =>
          exact scheduleEnd_withClock
            (indexInsert { w with store := .tumble state } key stop) hub scratch stop

theorem foldRow_withClock (i : ℕ) (key : List Scalar) (row : Row) :
    (w.withClock hub scratch).foldRow leases i key row =
      Prod.map id (·.withClock hub scratch) (w.foldRow leases i key row) := by
  have hs : (w.withClock hub scratch).store = w.store := rfl
  rw [foldRow, foldRow, hs]
  cases w.store with
  | count s => rfl
  | tumble s =>
    dsimp only
    cases s.get? key <;> rfl

theorem ensureWindow_withClock (i : ℕ) (key : List Scalar) (start stop : ℤ) (timer : Bool) :
    (w.withClock hub scratch).ensureWindow leases i key start stop timer =
      Prod.map id (·.withClock hub scratch) (w.ensureWindow leases i key start stop timer) := by
  have hs : (w.withClock hub scratch).store = w.store := rfl
  rw [ensureWindow, ensureWindow, hs]
  cases w.store with
  | count s => rfl
  | tumble s =>
    dsimp only
    split_ifs
    · rfl
    · exact openWindow_withClock ..

theorem upsertEtWindow_withClock (i : ℕ) (group : List Scalar) (start stop : ℤ) (row : Row) :
    (w.withClock hub scratch).upsertEtWindow leases i group start stop row =
      Prod.map id (·.withClock hub scratch) (w.upsertEtWindow leases i group start stop row) := by
  have hs : (w.withClock hub scratch).spec = w.spec := rfl
  simp only [upsertEtWindow, ensureWindow_withClock, hs]
  rcases w.ensureWindow leases i (etStateKey group start) start stop w.spec.kind.isPtHopping with ⟨_ | _, w₁⟩
  · rfl
  · exact foldRow_withClock ..

theorem upsertAll_withClock (group : List Scalar) (row : Row) (i : ℕ) (windows : List (ℤ × ℤ)) :
    (w.withClock hub scratch).upsertAll leases group row i windows =
      Prod.map id (·.withClock hub scratch) (w.upsertAll leases group row i windows) := by
  induction windows generalizing w i with
  | nil => rfl
  | cons window rest ih =>
    rw [upsertAll, upsertAll, upsertEtWindow_withClock]
    rcases w.upsertEtWindow leases i group window.1 window.2 row with ⟨_ | _, w₁⟩
    · rfl
    · exact ih w₁ (i + 1)

variable {leases}

theorem onCountRow_withClock (leases : Leases) (row : Row) (size : ℕ) :
    (w.withClock hub scratch).onCountRow leases row size =
      Prod.map id (·.withClock hub scratch) (w.onCountRow leases row size) := by
  have hs : (w.withClock hub scratch).store = w.store := rfl
  have he : ∀ s key, (w.withClock hub scratch).ensureCount leases s key = w.ensureCount leases s key :=
    fun _ _ => rfl
  have hk : (w.withClock hub scratch).groupKey row = w.groupKey row := rfl
  have ha : ∀ accs, (w.withClock hub scratch).applyRow (leases (.update 0)) row accs =
      w.applyRow (leases (.update 0)) row accs := fun _ => rfl
  rw [onCountRow, onCountRow, hs]
  cases w.store with
  | tumble s => rfl
  | count s =>
    simp only [he, hk]
    cases w.ensureCount leases s (w.groupKey row) with
    | error e => rfl
    | ok s =>
      dsimp only
      cases s.get? (w.groupKey row) with
      | none => rfl
      | some entry =>
        simp only [ha]
        rcases w.applyRow (leases (.update 0)) row entry.accs with ⟨_ | _, accs⟩
        · rfl
        · dsimp only
          split_ifs <;> rfl

/-! ### What is taken -/

theorem takeClosedFor_withClock (cut : ℤ) (n : ℕ) :
    takeClosedFor cut n (w.withClock hub scratch) =
      Prod.map id (·.withClock hub scratch) (takeClosedFor cut n w) := by
  induction n generalizing w with
  | zero => rfl
  | succ n ih =>
    have hn : (w.withClock hub scratch).nextClosedKey cut = w.nextClosedKey cut := rfl
    have hs : (w.withClock hub scratch).store = w.store := rfl
    rw [takeClosedFor, takeClosedFor, hn]
    cases w.nextClosedKey cut with
    | none => rfl
    | some key =>
      simp only [hs]
      have hr := fun store => ih { w with
        store, closedIndex := w.closedIndex.filter fun e => encodeKeyValues e.2 ≠ encodeKeyValues key }
      cases w.store with
      | count s => exact hr (.count s)
      | tumble s =>
        dsimp only
        cases s.get? key with
        | none => exact hr (.tumble s)
        | some entry => rfl

theorem takeClosedChunk_withClock (sizes : Sizes) (cut : ℤ) (maxBytes n bytes : ℕ) (out : List Row) :
    takeClosedChunk sizes cut maxBytes n bytes out (w.withClock hub scratch) =
      Prod.map id (·.withClock hub scratch) (takeClosedChunk sizes cut maxBytes n bytes out w) := by
  induction n generalizing w bytes out with
  | zero => rfl
  | succ n ih =>
    have hp : (w.withClock hub scratch).peekClosedBytes sizes cut = w.peekClosedBytes sizes cut := rfl
    have ht : (w.withClock hub scratch).takeClosedOne cut =
        Prod.map id (·.withClock hub scratch) (w.takeClosedOne cut) := takeClosedFor_withClock ..
    rw [takeClosedChunk, takeClosedChunk, hp]
    cases w.peekClosedBytes sizes cut with
    | none => rfl
    | some size =>
      simp only [ht]
      split_ifs
      · rfl
      · cases w.takeClosedOne cut with
        | mk row w₁ =>
          cases row with
          | none => rfl
          | some row => exact ih ..

theorem takeClosedBatch_withClock (sizes : Sizes) (leases : Leases) (cut : ℤ) (maxRows maxBytes : ℕ) :
    (w.withClock hub scratch).takeClosedBatch sizes leases cut maxRows maxBytes =
      Prod.map id (·.withClock hub scratch) (w.takeClosedBatch sizes leases cut maxRows maxBytes) := by
  have hc : (w.withClock hub scratch).chunkCut cut = w.chunkCut cut := rfl
  have hs : (w.withClock hub scratch).store = w.store := rfl
  have hi : (w.withClock hub scratch).closedIndex = w.closedIndex := rfl
  simp only [takeClosedBatch, hc, hs, hi, takeClosedChunk_withClock]
  cases w.store with
  | count s => rfl
  | tumble s =>
    dsimp only
    cases chunkCount sizes s (w.chunkCut cut) maxRows maxBytes 0 0 w.closedIndex.entries with
    | error e => rfl
    | ok count =>
      dsimp only
      split_ifs
      · rfl
      · cases leases .chunk <;> rfl

/-- What a fallible loop leaves, with another clock. -/
def clocked {α : Type} (hub : WatermarkHub) (scratch : Bool) : Result (α × WindowOperator) →
    Result (α × WindowOperator) :=
  Except.map (Prod.map id (·.withClock hub scratch))

theorem drainFor_withClock (d : Downstream) (cut : ℤ) (n : ℕ) :
    drainFor d cut n (w.withClock hub scratch) = clocked hub scratch (drainFor d cut n w) := by
  induction n generalizing w with
  | zero => rfl
  | succ n ih =>
    rw [drainFor, drainFor, takeClosedBatch_withClock]
    rcases w.takeClosedBatch d.sizes (d.leases n) cut d.maxItems d.maxBytes with ⟨_ | batch, w₁⟩
    · rfl
    · cases batch with
      | none => rfl
      | some b =>
        simp only [Prod.map_apply, id_eq, ih]
        cases drainFor d cut n w₁ <;> rfl

theorem advanceHoldback_withClock (wm : ℤ) :
    (w.withClock hub scratch).advanceHoldback wm = Prod.map id (·.withClock hub scratch)
      (w.advanceHoldback wm) := by
  have hh : (w.withClock hub scratch).holdback = w.holdback := rfl
  rw [advanceHoldback, advanceHoldback, hh]
  cases w.holdback with
  | none => rfl
  | some h =>
    dsimp only
    cases h.advanceOut wm <;> rfl

/-- **Closing windows** does not ask the hub. -/
theorem closeAt_withClock (d : Downstream) (wm : ℤ) :
    (w.withClock hub scratch).closeAt d wm = clocked hub scratch (w.closeAt d wm) := by
  have hd : (w.withClock hub scratch).drain d wm = clocked hub scratch (w.drain d wm) := drainFor_withClock ..
  rw [closeAt, closeAt, hd]
  cases w.drain d wm with
  | error e => rfl
  | ok r =>
    obtain ⟨batches, w₁⟩ := r
    simp only [clocked, Except.map, bind, Except.bind, Prod.map_apply, id_eq, advanceHoldback_withClock]
    cases w₁.advanceHoldback wm with
    | mk r w₂ => cases r <;> rfl

theorem emitWindow_withClock (d : Downstream) (out : WindowEmission) :
    (w.withClock hub scratch).emitWindow d out = clocked hub scratch (w.emitWindow d out) := by
  have hb : (w.withClock hub scratch).buildRowsChunked d out.finals = w.buildRowsChunked d out.finals := rfl
  have hwm : (w.withClock hub scratch).wmIn = w.wmIn := rfl
  rw [emitWindow, emitWindow, hb, hwm]
  cases w.buildRowsChunked d out.finals with
  | error e => rfl
  | ok finals =>
    cases out.pendingClose with
    | none => rfl
    | some wm =>
      simp only [closeAt_withClock]
      cases w.closeAt d wm <;> rfl

end WithClock

/-! ### Twin hubs -/

/-- Two hubs with one active input each, the same committed watermark and the same binding. -/
structure TwinHubs (hub hub' : WatermarkHub) : Prop where
  left : ∃ s, hub.Tracked s ∧ s.activity = .active
  right : ∃ s, hub'.Tracked s ∧ s.activity = .active
  effective : hub'.lastEffective = hub.lastEffective
  binding : hub'.binding = hub.binding

/-- A call answers the same on two hubs; if it succeeds they are twins that report the same. -/
def MovesAlike (r r' : Result (Option ℤ) × WatermarkHub) : Prop :=
  r'.1 = r.1 ∧ ∀ p, r.1 = .ok p → TwinHubs r.2 r'.2 ∧ r'.2.progress = r.2.progress

variable {hub : WatermarkHub} {s : InputState}

theorem MovesAlike.moved {s' : InputState} {e : ℤ} (hb : hub'.binding = hub.binding)
    (hr : (hub.movedTo s e).Reports s) (hr' : (hub'.movedTo s' e).Reports s') :
    MovesAlike (.ok (some e), hub.movedTo s e) (.ok (some e), hub'.movedTo s' e) := by
  refine ⟨rfl, fun p _ => ⟨⟨⟨s, hr.tracked, hr.active⟩, ⟨s', hr'.tracked, hr'.active⟩, rfl, hb⟩, ?_⟩⟩
  rw [hr.progress_eq, hr'.progress_eq]
  rfl

theorem TwinHubs.setWatermark (ht : TwinHubs hub hub') (wm : ℤ) :
    MovesAlike (hub.setWatermark .single wm) (hub'.setWatermark .single wm) := by
  obtain ⟨⟨s, hs, ha⟩, ⟨s', hs', ha'⟩, he, hb⟩ := ht
  by_cases hn : wm < 0
  · simp [MovesAlike, WatermarkHub.setWatermark, hn]
  · obtain ⟨s₁, heq, hr⟩ := hs.setWatermark_eq ha (not_lt.mp hn)
    obtain ⟨s₂, he', hr'⟩ := hs'.setWatermark_eq ha' (not_lt.mp hn)
    rw [he] at he' hr'
    rw [heq, he']
    exact .moved hb hr hr'

theorem TwinHubs.observeEvent (ht : TwinHubs hub hub') (ts now : ℤ)
    (hsk : (hub.binding.bind (·.maxFutureSkewMicros)).any (fun skew => ts > satAddI now skew) = false) :
    MovesAlike (hub.observeEvent .single ts now) (hub'.observeEvent .single ts now) := by
  obtain ⟨⟨s, hs, ha⟩, ⟨s', hs', ha'⟩, he, hb⟩ := ht
  by_cases hn : ts < 0
  · simp [MovesAlike, WatermarkHub.observeEvent, hn]
  · obtain ⟨s₁, heq, hr⟩ := hs.observeEvent_eq ha (not_lt.mp hn) hsk
    obtain ⟨s₂, he', hr'⟩ := hs'.observeEvent_eq ha' (not_lt.mp hn) (hb ▸ hsk)
    rw [he, hb] at he' hr'
    rw [heq, he']
    exact .moved hb hr hr'

/-! ### Draining -/

/-- Between batches: the input watermark is the committed one, the output watermark what it allows. -/
structure Calm (w : WindowOperator) (h : OutputHoldback) : Prop where
  holdback : w.holdback = some h
  lateness : 0 ≤ (h.latenessMicros : ℤ)
  wmIn : h.wmIn = w.hub.lastEffective
  wmOut : h.wmOut = h.wmIn.map h.cap

variable {w : WindowOperator}

/-- **A drain without news** changes nothing, and asks for the output watermark at most. -/
theorem Calm.drainWatermark {h : OutputHoldback} (hc : w.Calm h)
    (ht : w.hub.Tracked s) (ha : s.activity = .active) :
    ∃ p, (p = none ∨ p = w.wmOut) ∧ w.drainWatermark =
      (.ok { WindowEmission.none with pendingClose := p }, w) := by
  have ho : w.wmOut = h.wmOut := by simp [WindowOperator.wmOut, hc.holdback]
  unfold WindowOperator.drainWatermark
  rw [hc.holdback]
  obtain hp | hp := ht.progress_eq ha
  · rw [hp]
    exact ⟨none, .inl rfl, rfl⟩
  · cases he : w.hub.lastEffective with
    | none =>
      rw [hp, he]
      exact ⟨none, .inl rfl, rfl⟩
    | some e =>
      have hin : h.wmIn = some e := hc.wmIn.trans he
      have hwm : h.wmOut = some (h.cap e) := by rw [hc.wmOut, hin]; rfl
      have hon : h.onWmIn e = (.ok (some (h.cap e)), h) := by
        have hs : { h with wmIn := some e, wmOut := some (h.cap e) } = h := by rw [← hin, ← hwm]
        simp [OutputHoldback.onWmIn, hin, OutputHoldback.holdbackWmOut_ok hc.lateness, hwm, hs]
      refine ⟨some (h.cap e), .inr (ho.trans hwm).symm, ?_⟩
      simp only [hp, he, hon, Except.map]
      rw [← hc.holdback]

theorem drainWatermark_withClock (scratch : Bool) (hp : hub.progress = w.hub.progress) :
    (w.withClock hub scratch).drainWatermark = Prod.map id (·.withClock hub scratch) w.drainWatermark := by
  have hhu : (w.withClock hub scratch).hub = hub := rfl
  have hh : (w.withClock hub scratch).holdback = w.holdback := rfl
  rw [drainWatermark, drainWatermark, hhu, hh, hp]
  cases w.holdback with
  | none => rfl
  | some h => cases w.hub.progress <;> rfl

theorem drainWatermark_hub (w : WindowOperator) :
    w.drainWatermark.2.hub = w.hub ∧ w.drainWatermark.2.toWindowConfig = w.toWindowConfig := by
  unfold drainWatermark
  cases w.holdback with
  | none => exact ⟨rfl, rfl⟩
  | some h => cases w.hub.progress <;> exact ⟨rfl, rfl⟩

/-! ### Rows -/

/-- What is pending on both sides: the same, or with watermarks from outside at most the
output watermark. -/
def Echo (external : Bool) (out p q : Option ℤ) : Prop :=
  if external then (p = none ∨ p = out) ∧ (q = none ∨ q = out) else p = q

theorem Echo.none (external : Bool) (out : Option ℤ) : Echo external out .none .none := by
  cases external
  · rfl
  · exact ⟨.inl rfl, .inl rfl⟩

variable {out : Option ℤ}

theorem laterClose_echo {a b : Option ℤ} (ha : a = .none ∨ a = out) (hb : b = .none ∨ b = out) :
    laterClose a b = .none ∨ laterClose a b = out := by
  obtain rfl | rfl := ha
  · exact hb
  · obtain rfl | rfl := hb
    · cases a <;> exact .inr rfl
    · cases b with
      | none => exact .inl rfl
      | some b => exact .inr (by rw [laterClose, max_self])

variable {q : Option ℤ}

theorem Echo.laterClose {p p' q' : Option ℤ} (h : Echo external out p q) (h' : Echo external out p' q') :
    Echo external out (laterClose p p') (laterClose q q') := by
  cases external with
  | false =>
    obtain rfl : p = q := h
    obtain rfl : p' = q' := h'
    rfl
  | true => exact ⟨laterClose_echo h.1 h'.1, laterClose_echo h.2 h'.2⟩

/-- What a call leaves of an operator and its twin: the same error, or the same but for the hub and
an echo of the output watermark. -/
inductive Alike (external : Bool) (h : OutputHoldback) : Result WindowEmission × WindowOperator →
    Result WindowEmission × WindowOperator → Prop where
  | error {e : SparrowError} {w w' : WindowOperator} : Alike external h (.error e, w) (.error e, w')
  | ok {one : WindowEmission} {p : Option ℤ} {w : WindowOperator} {hub : WatermarkHub} {scratch : Bool}
      (hhubs : TwinHubs w.hub hub) (hecho : Echo external h.wmOut one.pendingClose p)
      (hcalm : external = true → w.Calm h) :
      Alike external h (.ok one, w) (.ok { one with pendingClose := p }, w.withClock hub scratch)

section Rows

variable {w : WindowOperator} {hub : WatermarkHub} {scratch : Bool} {h : OutputHoldback}
  {state : MemoryState TumbleEntry}

theorem foldEtRow_alike {windows : List (ℤ × ℤ)} (het : w.spec.kind.usesEventTime = true)
    (hst : w.store = .tumble state) (hh : TwinHubs w.hub hub)
    (hpr : w.externalWatermarks = false → hub.progress = w.hub.progress)
    (hc : w.externalWatermarks = true → w.Calm h) :
    Alike w.externalWatermarks h (w.foldEtRow leases row windows)
      ((w.withClock hub scratch).foldEtRow leases row windows) := by
  have hk : (w.withClock hub scratch).groupKey row = w.groupKey row := rfl
  have ho : (w.withClock hub scratch).wmOut = w.wmOut := rfl
  rw [foldEtRow, foldEtRow]
  simp only [hk, ho, upsertAll_withClock]
  rcases hal : w.upsertAll leases (w.groupKey row) row 0 (stillOpen w.wmOut windows) with ⟨_ | _, w₁⟩
  · exact .error
  · obtain ⟨o, -, rfl⟩ := upsertAll_ok het hst hal
    simp only [Prod.map_apply, id_eq]
    cases he : w.externalWatermarks with
    | false =>
      have hsa := drainWatermark_withClock (w := w.withWindows state o) scratch (hpr he)
      have hhu := (w.withWindows state o).drainWatermark_hub.1
      rw [hsa]
      rcases hd : (w.withWindows state o).drainWatermark with ⟨_ | _, w₂⟩ <;> rw [hd] at hhu
      · exact .error
      · exact .ok (hhu ▸ hh) rfl nofun
    | true =>
      have hc' : (w.withWindows state o).Calm h :=
        ⟨(hc he).holdback, (hc he).lateness, (hc he).wmIn, (hc he).wmOut⟩
      have hc₂ : ((w.withWindows state o).withClock hub scratch).Calm h :=
        ⟨hc'.holdback, hc'.lateness, hc'.wmIn.trans hh.effective.symm, hc'.wmOut⟩
      obtain ⟨s, hs, ha⟩ := hh.left
      obtain ⟨s', hs', ha'⟩ := hh.right
      obtain ⟨p, hp, hd⟩ := hc'.drainWatermark hs ha
      obtain ⟨q, hq, hd'⟩ := hc₂.drainWatermark hs' ha'
      have hwm : w.wmOut = h.wmOut := by simp [wmOut, (hc he).holdback]
      rw [hd, hd']
      exact .ok (p := q) hh ⟨hwm ▸ hp, hwm ▸ hq⟩ fun _ => hc'

variable {slide : Option Int64} {size : Int64}

/-- **A row of an event-time window does the same to both.** -/
theorem onEtRow_alike (het : w.spec.kind.usesEventTime = true)
    (hs : w.store = .tumble state) (hh : TwinHubs w.hub hub) (hb : w.hub.binding = w.spec.binding)
    (hc : w.externalWatermarks = true → w.Calm h) :
    Alike w.externalWatermarks h (w.onEtRow leases row now size slide)
      ((w.withClock hub scratch).onEtRow leases row now size slide) := by
  have ht : (w.withClock hub scratch).rowEventTime row = w.rowEventTime row := rfl
  have hfu : ∀ ts, (w.withClock hub scratch).isFuture ts now = w.isFuture ts now := fun _ => rfl
  have ha : ∀ ts, (w.withClock hub scratch).assigned ts size slide = w.assigned ts size slide := fun _ => rfl
  have hext : (w.withClock hub scratch).externalWatermarks = w.externalWatermarks := rfl
  rw [onEtRow, onEtRow, ht]
  cases w.rowEventTime row with
  | error e => exact .error
  | ok ts =>
    simp only [hfu]
    split_ifs with hsk
    · exact .ok (p := none) hh (Echo.none ..) hc
    · rw [observeRow, observeRow, hext]
      cases he : w.externalWatermarks with
      | true =>
        simp only [↓reduceIte, ha]
        cases w.assigned ts size slide with
        | error e => exact .error
        | ok windows =>
          rw [← he]
          exact foldEtRow_alike het hs hh (by simp [he]) hc
      | false =>
        -- both hubs see the event
        have hm := hh.observeEvent ts now
          (by rw [hb]; simpa [WindowConfig.isFuture] using hsk)
        have hhu : (w.withClock hub scratch).hub = hub := rfl
        simp only [Bool.false_eq_true, ↓reduceIte, hhu]
        cases ho : w.hub.observeEvent .single ts now with
        | mk r hu₁ =>
          cases ho' : hub.observeEvent .single ts now with
          | mk r' hu₂ =>
            rw [ho, ho'] at hm
            obtain ⟨hr, hm⟩ := hm
            obtain rfl : r' = r := hr
            cases r' with
            | error e => exact .error
            | ok p =>
              obtain ⟨hh₁, hp⟩ := hm p rfl
              simp only [Except.map, withClock]
              cases w.assigned ts size slide with
              | error e => exact .error
              | ok windows =>
                have hf : Alike w.externalWatermarks h
                    (({ w with hub := hu₁ } : WindowOperator).foldEtRow leases row windows)
                    ((({ w with hub := hu₁ } : WindowOperator).withClock hu₂ scratch).foldEtRow
                      leases row windows) :=
                  foldEtRow_alike (w := { w with hub := hu₁ }) het hs hh₁ (fun _ => hp) (by simp [he])
                rw [he] at hf
                exact hf

/-- The operator with credit for the candidate accumulators. -/
def leased (w : WindowOperator) : WindowOperator := w.withClock w.hub (w.scratchLeased || w.variableAccs)

theorem leased_withClock : (w.withClock hub scratch).leased =
    w.leased.withClock hub (scratch || w.variableAccs) := rfl

theorem onRow_granted (hpt : w.spec.kind.isPtHopping = false) (hl : leases .scratch = .ok ()) :
    w.onRow leases row now = w.leased.onRowKind leases row now := by
  simp only [onRow, hoppingNow, hpt, Bool.false_eq_true, and_false, ↓reduceIte, leaseAgain, hl,
    leased, withClock]
  cases hv : w.variableAccs <;> cases hs : w.scratchLeased <;> simp
  all_goals rw [← hs]

theorem onRow_alike (hk : w.spec.kind.etWindow = some (size, slide))
    (hl : leases .scratch = .ok ()) (hs : w.store = .tumble state) (hh : TwinHubs w.hub hub)
    (hb : w.hub.binding = w.spec.binding) (hc : w.externalWatermarks = true → w.Calm h) :
    Alike w.externalWatermarks h (w.onRow leases row now)
      ((w.withClock hub scratch).onRow leases row now) := by
  have het := WindowKind.usesEventTime_of_etWindow hk
  have hpt := WindowKind.not_isPtHopping het
  rw [onRow_granted hpt hl, onRow_granted (w := w.withClock hub scratch) hpt hl, leased_withClock,
    onRowKind_et (w := w.leased) hk, onRowKind_et
      (w := w.leased.withClock hub (scratch || w.variableAccs)) hk]
  exact onEtRow_alike (w := w.leased) het hs hh hb
    fun he => ⟨(hc he).holdback, (hc he).lateness, (hc he).wmIn, (hc he).wmOut⟩

theorem onRowKind_count {size : ℕ} (hk : w.spec.kind = .count size) (leases : Leases) (row : Row) (now : ℤ) :
    w.onRowKind leases row now =
      ((w.onCountRow leases row size).1.map fun finals => { WindowEmission.none with finals },
        (w.onCountRow leases row size).2) := by
  unfold onRowKind
  rw [hk]

/-- **A row of a count window does the same to both.** -/
theorem onRow_alike_count {size : ℕ} (hk : w.spec.kind = .count size) (hl : leases .scratch = .ok ())
    (hhu : TwinHubs w.hub hub) :
    Alike false h (w.onRow leases row now) ((w.withClock hub scratch).onRow leases row now) := by
  have hpt : w.spec.kind.isPtHopping = false := by rw [hk]; rfl
  rw [onRow_granted hpt hl, onRow_granted (w := w.withClock hub scratch) hpt hl, leased_withClock,
    onRowKind_count (w := w.leased) hk,
    onRowKind_count (w := w.leased.withClock hub (scratch || w.variableAccs)) hk, onCountRow_withClock]
  -- the same with the clock it has: the hub is kept
  have hh : (w.leased.onCountRow leases row size).2.hub = w.hub :=
    congrArg (·.2.hub) (onCountRow_withClock w.leased w.hub w.leased.scratchLeased leases row size)
  rcases hr : w.leased.onCountRow leases row size with ⟨_ | _, w₂⟩ <;> rw [hr] at hh
  · exact .error
  · exact .ok (p := none) (hh ▸ hhu) rfl nofun

/-- **The rows of a batch do the same to both**, if each row does and keeps what that takes. -/
theorem onRows_alike {I : WindowOperator → Prop} {leases : ℕ → Leases} {rows : List Row}
    (hro : ∀ w hub scratch i row, I w → TwinHubs w.hub hub → (external = true → w.Calm h) →
      Alike external h (w.onRow (leases i) row now) ((w.withClock hub scratch).onRow (leases i) row now))
    (hk : ∀ w i row one w', I w → w.onRow (leases i) row now = (.ok one, w') → I w')
    {before : WindowEmission} {i : ℕ} (hI : I w) (hh : TwinHubs w.hub hub) (hc : external = true → w.Calm h)
    (he : Echo external h.wmOut before.pendingClose q) :
    Alike external h (w.onRows leases now i before rows)
      ((w.withClock hub scratch).onRows leases now i { before with pendingClose := q } rows) := by
  induction rows generalizing w hub scratch before q i with
  | nil => exact .ok hh he hc
  | cons row rest ih =>
    have ho := hro w hub scratch i row hI hh hc
    rw [onRows, onRows]
    cases hr : w.onRow (leases i) row now with
    | mk r w₁ =>
      cases hr' : (w.withClock hub scratch).onRow (leases i) row now with
      | mk r' w₂ =>
        rw [hr, hr'] at ho
        cases ho with
        | error => exact .error
        | ok hh' he' hc' =>
          exact ih (hk w i row _ w₁ hI hr) hh' hc' (he.laterClose he')

end Rows

/-! ### Sending -/

def Report.isOutput : Report → Bool
  | .watermark _ => false
  | _ => true

/-- The rows, late rows and finals of a log. -/
def outputs (log : List Report) : List Report := log.filter Report.isOutput

/-- What an input leaves of an operator and its twin. -/
inductive SendsAlike : Result (List Report × WindowOperator) →
    Result (List Report × WindowOperator) → Prop where
  | error {e : SparrowError} : SendsAlike (.error e) (.error e)
  | ok {log log' : List Report} {w : WindowOperator} {hub : WatermarkHub} {scratch : Bool}
      (hhubs : TwinHubs w.hub hub) (hout : outputs log' = outputs log) :
      SendsAlike (.ok (log, w)) (.ok (log', w.withClock hub scratch))

def Quiet (w : WindowOperator) (out : Option ℤ) : Prop :=
  ∀ o, out = some o → ∀ e ∈ w.closedIndex.entries, o < (ofLex e.1).1

section Sending

variable {w : WindowOperator} {hub : WatermarkHub} {scratch : Bool} {h : OutputHoldback} {d : Downstream}

theorem drain_quiet {cut : ℤ} (hpt : w.spec.kind.isPtHopping = false)
    (hq : ∀ e ∈ w.closedIndex.entries, cut < (ofLex e.1).1) : w.drain d cut = .ok ([], w) := by
  have hc : ∀ s, chunkCount d.sizes s cut d.maxItems d.maxBytes 0 0 w.closedIndex.entries = .ok 0 := by
    intro s
    cases he : w.closedIndex.entries with
    | nil => rfl
    | cons e rest =>
      have hlt := hq e (by simp [he])
      simp [chunkCount, hlt]
  rw [drain, drainFor]
  unfold takeClosedBatch
  simp only [chunkCut, hpt, Bool.false_eq_true, ↓reduceIte]
  cases w.store with
  | count s => rfl
  | tumble s => simp [hc]

/-- **Closing at the output watermark again** changes nothing. -/
theorem Calm.closeAt {o : ℤ} (hc : w.Calm h) (hpt : w.spec.kind.isPtHopping = false) (ho : h.wmOut = some o)
    (hq : w.Quiet h.wmOut) : w.closeAt d o = .ok ([.watermark o], w) := by
  obtain ⟨i, hi, hca⟩ : ∃ i, h.wmIn = some i ∧ h.cap i = o := by
    have hou := hc.wmOut
    rw [ho] at hou
    cases hin : h.wmIn with
    | none => simp [hin] at hou
    | some i => exact ⟨i, rfl, by simpa [hin, eq_comm] using hou⟩
  have hs : { h with wmOut := some o } = h := by rw [← ho]
  have ha : h.advanceOut o = .ok h := by
    simpa [OutputHoldback.advanceOut, OutputHoldback.overCap, hi, OutputHoldback.holdbackWmOut_ok hc.lateness,
      hca, ho, refuseIf, bind, Except.bind, pure, Except.pure] using hs
  rw [WindowOperator.closeAt, drain_quiet hpt (hq o ho)]
  simp only [bind, Except.bind, advanceHoldback, hc.holdback, ha, pure, Except.pure]
  rw [← hc.holdback]
  rfl

theorem Calm.emitWindow (out : WindowEmission) (hc : w.Calm h) (hpt : w.spec.kind.isPtHopping = false)
    (hq : w.Quiet h.wmOut) (hp : out.pendingClose = none ∨ out.pendingClose = h.wmOut) :
    ∃ closed, outputs closed = [] ∧ w.emitWindow d out = (w.buildRowsChunked d out.finals).map fun finals =>
      (out.lates.map .late ++ (finals.map fun b => Report.finals b.rows w.wmIn) ++ closed, w) := by
  rw [WindowOperator.emitWindow]
  cases hpe : out.pendingClose with
  | none =>
    refine ⟨[], rfl, ?_⟩
    simp only [List.append_nil]
    cases w.buildRowsChunked d out.finals <;> rfl
  | some o =>
    rw [hpe] at hp
    have ho := (hp.resolve_left nofun).symm
    refine ⟨[.watermark o], rfl, ?_⟩
    simp only [hc.closeAt hpt ho hq]
    cases w.buildRowsChunked d out.finals <;> rfl

/-- **Both send the same.** -/
theorem Alike.emitted {r r' : Result WindowEmission × WindowOperator} (hr : Alike external h r r')
    (hqu : external = true → ∀ one w, r = (.ok one, w) → w.Calm h →
      w.spec.kind.isPtHopping = false ∧ w.Quiet h.wmOut) :
    SendsAlike (emitted d r) (emitted d r') := by
  cases hr with
  | error => exact .error
  | @ok one p w hub scratch hh he hc =>
    simp only [WindowOperator.emitted]
    cases external with
    | false =>
      obtain rfl : one.pendingClose = p := he
      have hs := emitWindow_withClock w w.hub w.scratchLeased d one
      rw [show w.withClock w.hub w.scratchLeased = w from rfl] at hs
      rw [emitWindow_withClock]
      cases hem : w.emitWindow d one with
      | error e => exact .error
      | ok sent =>
        obtain ⟨log, w'⟩ := sent
        rw [hem] at hs
        simp only [clocked, Except.map, Except.ok.injEq, Prod.map_apply, id_eq, Prod.mk.injEq, true_and] at hs
        have hhu : w'.hub = w.hub := by rw [hs]; rfl
        exact .ok (hhu ▸ hh) rfl
    | true =>
      have hc := hc rfl
      obtain ⟨hpt, hq⟩ := hqu rfl one w rfl hc
      have hc' : (w.withClock hub scratch).Calm h :=
        ⟨hc.holdback, hc.lateness, hc.wmIn.trans hh.effective.symm, hc.wmOut⟩
      obtain ⟨closed, hcl, hem⟩ := hc.emitWindow (d := d) one hpt hq he.1
      obtain ⟨closed', hcl', he'⟩ := hc'.emitWindow (d := d) { one with pendingClose := p } hpt hq
        he.2
      have hb : (w.withClock hub scratch).buildRowsChunked d one.finals =
          w.buildRowsChunked d one.finals := rfl
      rw [hem, he', hb]
      cases w.buildRowsChunked d one.finals with
      | error e => exact .error
      | ok finals =>
        refine .ok hh ?_
        simp only [outputs, List.filter_append]
        rw [show closed.filter Report.isOutput = [] from hcl, show closed'.filter Report.isOutput =
          [] from hcl']
        rfl

/-- **A punctuation** does the same to both. -/
theorem onHub_alike {wm : ℤ} (hhu : TwinHubs w.hub hub) :
    Alike false h (w.observeWatermark .single wm)
      ((w.withClock hub scratch).observeWatermark .single wm) := by
  have hm := hhu.setWatermark wm
  have hh : (w.withClock hub scratch).hub = hub := rfl
  rw [observeWatermark, observeWatermark, onHub, onHub, hh]
  cases hse : w.hub.setWatermark .single wm with
  | mk r hu₁ =>
    cases hs' : hub.setWatermark .single wm with
    | mk r' hu₂ =>
      rw [hse, hs'] at hm
      obtain ⟨hr, hm⟩ := hm
      obtain rfl : r' = r := hr
      cases r' with
      | error e => exact .error
      | ok p =>
        obtain ⟨hh', hp⟩ := hm p rfl
        have hs := drainWatermark_withClock (w := { w with hub := hu₁ }) scratch hp
        have hk := (drainWatermark_hub { w with hub := hu₁ }).1
        dsimp only at hk ⊢
        rw [show ({ w.withClock hub scratch with hub := hu₂ } : WindowOperator) =
          ({ w with hub := hu₁ } : WindowOperator).withClock hu₂ scratch from rfl, hs]
        rcases hd : drainWatermark { w with hub := hu₁ } with ⟨_ | _, w₁⟩ <;> rw [hd] at hk
        · exact .error
        · exact .ok (hk ▸ hh') rfl nofun

end Sending

end WindowOperator

end Sparrow.Runtime
