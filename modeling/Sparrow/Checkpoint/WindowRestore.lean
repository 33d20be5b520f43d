import Sparrow.Checkpoint.WindowFrame
import Sparrow.Checkpoint.WindowTwin

/-!
# Restoring a window is transparent

A freeze of an event-time or count window carries neither the watermark of its input nor the
largest event time it has shown. Between batches they do not matter: as long as the input is
active, the committed watermark covers both. A restored operator thus goes on as the original
would have, row by row and error by error; it may only be spared a repeated output watermark.

An input that was idle at the freeze is active after it, which does matter (`idle_forgotten`).
-/

namespace Sparrow.Runtime

open Library Model Plan WindowKind Result Option WatermarkHub

variable {n : ℕ} {now : ℤ} {s : InputState} {out : WindowEmission}

namespace WindowOperator

/-! ### Between batches -/

def Input.FromSingle : Input → Prop
  | .watermark id _ | .idle id | .active id => id = .single
  | _ => True

/-- What holds of an operator of either kind between batches. -/
structure Rested (w₀ w : WindowOperator) : Prop where
  frame : Frame w₀ w
  tracked : ∃ s, w.hub.Tracked s
  binding : w.hub.binding = w₀.spec.binding

/-- An event-time window between batches. -/
structure EtRested (w₀ : WindowOperator) (size : Int64) (log : List Report) (w : WindowOperator) : Prop
    extends Rested w₀ w where
  kept : ∃ state h, Kept w₀.toWindowConfig size log w state h ∧ w.Calm h

structure CountRested (w₀ w : WindowOperator) : Prop extends Rested w₀ w where
  holdback : w.holdback = none
  index : w.closedIndex = w₀.closedIndex

variable {hub hub' : WatermarkHub}

theorem laterWm_soloStep (ht : hub.Tracked s) (hs : SoloStep hub hub') :
    laterWm hub.lastEffective hub'.progress = hub'.lastEffective := by
  cases hs with
  | same =>
    by_cases ha : s.activity = .active
    · obtain hp | hp := ht.progress_eq ha
      · rw [hp, laterWm]
      · rw [hp]
        cases hub.lastEffective with
        | none => rfl
        | some e => simp [laterWm]
    · rw [progress_solo ht.inputs, if_neg ha, laterWm]
  | commit s' ho =>
    by_cases hre : s'.activity = .active ∧ s'.wm.isSome
    · have hr : (hub.soloCommit s').2.Reports s' := ⟨.soloCommit ho, hre.1, hre.2⟩
      obtain ⟨m, hm⟩ := Option.isSome_iff_exists.mp hre.2
      have he : (hub.soloCommit s').2.lastEffective = some (later hub.lastEffective m) := by
        rw [soloCommit_eq hre.1 hm rfl]
        rfl
      rw [hr.progress_eq, he]
      cases hub.lastEffective with
      | none => rfl
      | some e => simp [laterWm, later]
    · -- nothing is reported, and nothing was committed
      have hn : (if s'.activity = .active then s'.wm.map (later hub.lastEffective) else none) = none := by
        split_ifs with ha
        · cases hm : s'.wm with
          | none => rfl
          | some m => exact absurd ⟨ha, by simp [hm]⟩ hre
        · rfl
      have he : (hub.soloCommit s').2.lastEffective = hub.lastEffective := by
        simp only [soloCommit, hn, none_or]
      have hp : (hub.soloCommit s').2.progress = none := by
        rw [progress_solo (s := s') rfl, he]
        exact hn
      rw [hp, he, laterWm]

/-- The clock of a window, as rows move it: the input watermark is the committed one. -/
def Caught (binding : Option EventTimeBinding) (clock : WatermarkHub × Option ℤ) : Prop :=
  (∃ s, clock.1.Tracked s) ∧ clock.1.binding = binding ∧ clock.2 = clock.1.lastEffective

variable {clock : WatermarkHub × Option ℤ} {binding : Option EventTimeBinding}

theorem Caught.watch (h : Caught binding clock)
    (c : WindowConfig) (now : ℤ) (row : Row) : Caught binding (watch c now clock row) := by
  obtain ⟨⟨s, hs⟩, hb, hin⟩ := h
  unfold WindowOperator.watch
  cases c.rowEventTime row with
  | error e => exact ⟨⟨s, hs⟩, hb, hin⟩
  | ok ts =>
    dsimp only
    split_ifs with hf he
    · exact ⟨⟨s, hs⟩, hb, hin⟩
    · exact ⟨⟨s, hs⟩, hb, by rw [hin]; exact laterWm_soloStep hs .same⟩
    · have hst := hs.observeEvent ts now
      exact ⟨hst.tracked hs, hst.binding_eq.trans hb, by rw [hin]; exact laterWm_soloStep hs hst⟩

theorem Caught.foldl (h : Caught binding clock)
    (c : WindowConfig) (now : ℤ) (rows : List Row) :
    Caught binding (rows.foldl (WindowOperator.watch c now) clock) := by
  induction rows generalizing clock with
  | nil => exact h
  | cons row _ ih => exact ih (h.watch c now row)

/-! ### What an input keeps -/

section Steps

variable {w₀ w w' : WindowOperator} {d : Downstream} {sent log : List Report}

def Restorable (kind : WindowKind) : Prop := (∃ p, kind.etWindow = some p) ∨ ∃ n, kind = .count n

theorem emitted_frame {r : Result WindowEmission × WindowOperator} (hr : Frame w r.2)
    (h : emitted d r = .ok (sent, w')) : Frame w w' := by
  obtain ⟨out, w₁, rfl, he⟩ := emitted_ok h
  exact hr.trans (emitWindow_frame he)

variable {input : Input}

/-- **An input leaves the timers alone.** -/
theorem step_frame (hk : Restorable w.spec.kind) (hd : ∀ now, w.emitDue d now = .ok ([], w))
    (hs : step d w input = .ok (sent, w')) : Frame w w' := by
  cases input with
  | batch rows now leases =>
    rw [step, hd] at hs
    obtain ⟨_, ⟨⟩, hs⟩ := bind_eq_ok.mp hs
    obtain ⟨⟨out, w₂⟩, he, hs⟩ := bind_eq_ok.mp hs
    simp only [pure, Except.pure, Except.ok.injEq, Prod.mk.injEq] at hs
    rw [← hs.2]
    exact emitted_frame (onRows_frame hk ..) he
  | watermark | idle | active => exact emitted_frame (onHub_frame _) hs
  | finish =>
    refine emitted_frame ?_ hs
    unfold finishInput
    rcases w.hub.markActive .single with ⟨_ | _, hub⟩
    · exact ⟨rfl, rfl, rfl, rfl, id⟩
    · have hf := onHub_frame (w := { w with hub }) (·.setWatermark .single i64Max)
      exact ⟨hf.config, hf.timers, hf.clock, hf.cleared, hf.sound⟩
  | tick now =>
    rw [step, hd] at hs
    simp only [Except.ok.injEq, Prod.mk.injEq] at hs
    rw [← hs.2]
    exact .refl w

variable {c : WindowConfig} {size : Int64} {slide : Option Int64} {state : MemoryState TumbleEntry}
  {h : OutputHoldback}

/-- **A control of the hub** leaves the operator at rest, if it leaves the input watermark caught up. -/
theorem control_calm (call : WatermarkHub → Result (Option ℤ) × WatermarkHub)
    (het : c.spec.kind.usesEventTime = true) (hL : 0 ≤ (c.spec.latenessMicros : ℤ))
    (hk : Kept c size log w state h) (ho : h.wmOut = h.wmIn.map h.cap)
    (hca : laterWm h.wmIn (call w.hub).2.progress = (call w.hub).2.lastEffective)
    (he : emitted d (w.onHub call) = .ok (sent, w')) :
    w'.hub = (call w.hub).2 ∧ ∃ state' h', Kept c size (log ++ sent) w' state' h' ∧ w'.Calm h' := by
  have hL' : 0 ≤ (h.latenessMicros : ℤ) := hk.lateness ▸ hL
  obtain ⟨state', h', hk', -⟩ := emitted_kept het hL hk he
  obtain ⟨out, w₁, hc, he⟩ := emitted_ok he
  obtain ⟨h₁, hk₁, hf, -, -⟩ := onHub_kept hL hk hc
  obtain ⟨pending, h₂, ha, rfl, rfl⟩ := onHub_ok hk.holdback hc
  obtain rfl : h₂ = h₁ := some.inj hk₁.holdback
  obtain ⟨-, hin, ht⟩ := (Timed.start ho).advances hL' ha
  obtain ⟨hh, ⟨h₃, hh₃, hi₃, ho₃⟩, -⟩ := emitWindow_timed het hk₁ hf ht he
  obtain rfl : h' = h₃ := some.inj (hk'.holdback.symm.trans hh₃)
  refine ⟨hh, state', h', hk', hh₃, hk'.lateness ▸ hL, ?_, ho₃⟩
  rw [hi₃, hin, hca, hh]

theorem EtRested.control {call : WatermarkHub → Result (Option ℤ) × WatermarkHub}
    (hki : w₀.spec.kind.etWindow = some (size, slide)) (hL : 0 ≤ (w₀.spec.latenessMicros : ℤ))
    (hr : EtRested w₀ size log w) (hca : ∀ {s}, w.hub.Tracked s → SoloStep w.hub (call w.hub).2)
    (hf : Frame w w') (he : emitted d (w.onHub call) = .ok (sent, w')) :
    EtRested w₀ size (log ++ sent) w' := by
  obtain ⟨s, hs⟩ := hr.tracked
  obtain ⟨state, h, hk, hc⟩ := hr.kept
  have hst := hca hs
  obtain ⟨hh, hk'⟩ := control_calm _ (usesEventTime_of_etWindow hki) hL hk hc.wmOut
    (by rw [hc.wmIn]; exact laterWm_soloStep hs hst) he
  refine ⟨⟨hr.frame.trans hf, ?_, ?_⟩, hk'⟩
  · rw [hh]
    exact hst.tracked hs
  · rw [hh, hst.binding_eq, hr.binding]

/-- A watermark that an active input reports leaves the input watermark caught up, wherever it was. -/
theorem setWatermark_caught {wmIn : Option ℤ} (wm : ℤ) (ht : hub.Tracked s)
    (ha : s.activity = .active) (hf : ∀ {e}, wmIn = some e → ∃ e', hub.lastEffective = some e' ∧ e ≤ e')
    (hwm : 0 ≤ wm) :
    ∃ s', (hub.setWatermark .single wm).2.Reports s' ∧ (hub.setWatermark .single wm).2.binding = hub.binding ∧
      laterWm wmIn (hub.setWatermark .single wm).2.progress =
        (hub.setWatermark .single wm).2.lastEffective := by
  obtain ⟨s', hs, hr⟩ := ht.setWatermark_eq ha hwm
  rw [hs]
  refine ⟨s', hr, rfl, ?_⟩
  rw [hr.progress_eq]
  have he : (hub.movedTo s' (later hub.lastEffective wm)).lastEffective =
      some (later hub.lastEffective wm) := rfl
  rw [he]
  cases wmIn with
  | none => rfl
  | some e =>
    obtain ⟨e', he', hle⟩ := hf rfl
    have hl' : e ≤ max e' wm := hle.trans (le_max_left _ _)
    have hl : ¬ (some e).any (fun prev => max e' wm < prev) := by
      rw [any_some, decide_eq_true_iff]
      exact not_lt.mpr hl'
    rw [he', later, laterWm, if_neg hl]

/-- **An input leaves an event-time window at rest.** -/
theorem EtRested.step (hki : w₀.spec.kind.etWindow = some (size, slide))
    (hL : 0 ≤ (w₀.spec.latenessMicros : ℤ)) (hre : EtRested w₀ size log w) (hsi : input.FromSingle)
    (hst : WindowOperator.step d w input = .ok (sent, w')) : EtRested w₀ size (log ++ sent) w' := by
  have het := usesEventTime_of_etWindow hki
  have hco := hre.frame.config
  have hki' : w.spec.kind.etWindow = some (size, slide) := by rw [hco]; exact hki
  have he' := usesEventTime_of_etWindow hki'
  have hf := step_frame (.inl ⟨_, hki'⟩) (fun now => emitDue_ok he') hst
  obtain ⟨s, hs⟩ := hre.tracked
  obtain ⟨state, h, hk, hc⟩ := hre.kept
  cases input with
  | batch rows now leases =>
    obtain ⟨state', h', hk', -⟩ := step_kept hki hL hk hst
    obtain ⟨⟨h₁, hh₁, ho, hcl⟩, -, -⟩ := step_timed hki hL hk hc.wmOut hst
    obtain rfl : h' = h₁ := some.inj (hk'.holdback.symm.trans hh₁)
    have hca : Caught w₀.spec.binding (w.hub, h.wmIn) := ⟨⟨s, hs⟩, hre.binding, hc.wmIn⟩
    obtain ⟨ht, hb, hin⟩ := hcl ▸ hca.foldl w₀.toWindowConfig now rows
    exact ⟨⟨hre.frame.trans hf, ht, hb⟩, state', h', hk', hh₁, hk'.lateness ▸ hL, hin, ho⟩
  | watermark id wm =>
    obtain rfl : id = .single := hsi
    exact hre.control hki hL (fun hs => hs.setWatermark wm) hf hst
  | idle id =>
    obtain rfl : id = .single := hsi
    exact hre.control hki hL (fun hs => hs.markIdle) hf hst
  | active id =>
    obtain rfl : id = .single := hsi
    exact hre.control hki hL (fun hs => hs.markActive) hf hst
  | finish =>
    have hm := commit_solo hs.inputs fun s => { s with activity := .active }
    have ht : (w.hub.markActive .single).2.Tracked { s with activity := .active } := by
      rw [WatermarkHub.markActive, hm]
      exact .soloCommit hs.observed
    have hfl : ∀ {e}, w.hub.lastEffective = some e → _ := (step_markActive w.hub .single).floor_le
    have hsa := (hs.markActive).binding_eq
    simp only [WindowOperator.step, finishInput] at hst
    rcases hr : w.hub.markActive .single with ⟨_ | _, hub⟩ <;> rw [hr] at hst ht hfl hsa
    · simp [emitted] at hst
    · have hk₁ : Kept w₀.toWindowConfig size log { w with hub } state h :=
        ⟨hk.config, hk.store, hk.holdback, hk.lateness, hk.capped, hk.balanced, hk.finals,
          hk.openAt⟩
      obtain ⟨s', hrep, hb, hca⟩ := setWatermark_caught i64Max ht rfl (hc.wmIn ▸ hfl)
        (by simp [i64Max])
      obtain ⟨hh, hk'⟩ := control_calm (w := { w with hub }) (·.setWatermark .single i64Max) het hL
        hk₁ hc.wmOut hca hst
      refine ⟨⟨hre.frame.trans hf, ⟨s', hh ▸ hrep.tracked⟩, ?_⟩, hk'⟩
      rw [hh, ← hre.binding, ← hsa]
      exact hb
  | tick now =>
    rw [WindowOperator.step, emitDue_ok he'] at hst
    obtain ⟨rfl, rfl⟩ : [] = sent ∧ w = w' := by simpa using hst
    exact ⟨hre.toRested, by simpa using hre.kept⟩

/-! ### Count windows -/

theorem onCountRow_store (leases : Leases) (row : Row) (n : ℕ) :
    ∃ store, (w.onCountRow leases row n).2 = { w with store } := by
  unfold onCountRow
  cases w.store with
  | tumble s => exact ⟨w.store, rfl⟩
  | count s =>
    dsimp only
    cases w.ensureCount leases s (w.groupKey row) with
    | error e => exact ⟨w.store, rfl⟩
    | ok s =>
      dsimp only
      cases s.get? (w.groupKey row) with
      | none => exact ⟨_, rfl⟩
      | some entry =>
        dsimp only
        rcases w.applyRow (leases (.update 0)) row entry.accs with ⟨_ | _, accs⟩
        · exact ⟨_, rfl⟩
        · dsimp only
          split_ifs <;> exact ⟨_, rfl⟩

theorem onRow_count {leases : Leases} {row : Row} (hk : w.spec.kind = .count n)
    (hro : w.onRow leases row now = (.ok out, w')) :
    out.pendingClose = none ∧ ∃ store scratch, w' = { w with store, scratchLeased := scratch } := by
  have hpt : w.spec.kind.isPtHopping = false := by rw [hk]; rfl
  simp only [onRow, hoppingNow, hpt, Bool.false_eq_true, and_false, ↓reduceIte] at hro
  have hl : ∃ scratch, (w.leaseAgain leases).2 = { w with scratchLeased := scratch } := by
    unfold leaseAgain
    split_ifs
    · cases leases .scratch <;> exact ⟨_, rfl⟩
    · exact ⟨w.scratchLeased, rfl⟩
  obtain ⟨scratch, hl⟩ := hl
  cases hr : w.leaseAgain leases with
  | mk r w₁ =>
    obtain rfl : w₁ = { w with scratchLeased := scratch } := by rw [hr] at hl; exact hl
    rw [hr] at hro
    cases r with
    | error e => simp at hro
    | ok u =>
      dsimp only at hro
      rw [onRowKind_count (w := { w with scratchLeased := scratch }) hk] at hro
      obtain ⟨store, hs⟩ := onCountRow_store (w := { w with scratchLeased := scratch }) leases row n
      rw [hs] at hro
      obtain ⟨ho, rfl⟩ := Prod.mk.inj hro
      rcases hc : onCountRow { w with scratchLeased := scratch } leases row n with ⟨_ | _, w₂⟩ <;>
        rw [hc] at ho
      · simp [Except.map] at ho
      · cases ho
        exact ⟨rfl, store, scratch, rfl⟩

theorem onRows_count {leases : ℕ → Leases} {rows : List Row} {i : ℕ} {before : WindowEmission}
    (hk : w.spec.kind = .count n) (hb : before.pendingClose = none)
    (hro : w.onRows leases now i before rows = (.ok out, w')) :
    out.pendingClose = none ∧ ∃ store scratch, w' = { w with store, scratchLeased := scratch } := by
  induction rows generalizing w i before with
  | nil =>
    obtain ⟨rfl, rfl⟩ : before = out ∧ w = w' := by simpa [onRows] using hro
    exact ⟨hb, w.store, w.scratchLeased, rfl⟩
  | cons row rest ih =>
    rw [onRows] at hro
    rcases hr : w.onRow (leases i) row now with ⟨_ | _, w₁⟩ <;> rw [hr] at hro
    · simp at hro
    · obtain ⟨ho, store, scratch, rfl⟩ := onRow_count hk hr
      obtain ⟨hou, store', scratch', rfl⟩ := ih (w := { w with store, scratchLeased := scratch }) hk
        (by simp [WindowEmission.extend, hb, ho, laterClose]) hro
      exact ⟨hou, store', scratch', rfl⟩

theorem emitWindow_none (hp : out.pendingClose = none) (h : w.emitWindow d out = .ok (sent, w')) :
    w' = w := by
  obtain ⟨finals, -, h⟩ := bind_eq_ok.mp h
  simp only [hp, pure, Except.pure, Except.ok.injEq, Prod.mk.injEq] at h
  exact h.2.symm

theorem onHub_count (call : WatermarkHub → Result (Option ℤ) × WatermarkHub) (hh : w.holdback = none)
    (he : emitted d (w.onHub call) = .ok (sent, w')) : w' = { w with hub := (call w.hub).2 } := by
  obtain ⟨out, w₁, hc, he⟩ := emitted_ok he
  unfold onHub at hc
  rcases hr : call w.hub with ⟨_ | _, hub⟩ <;> rw [hr] at hc
  · simp at hc
  · simp only [drainWatermark, hh] at hc
    cases hc
    rw [emitWindow_none (show WindowEmission.none.pendingClose = none from rfl) he, hh]

theorem emitDue_count (hk : w.spec.kind = .count n) (hl : w.timers.live = .empty) (now : ℤ) :
    w.emitDue d now = .ok ([], w) := by
  have hpt : w.spec.kind.isPtHopping = false := by rw [hk]; rfl
  have het : w.spec.kind.usesEventTime = false := by rw [hk]; rfl
  have hs : ({ w.timers with live := w.timers.live.popWhile fun e => decide (e.1 ≤ now) } : BoundedTimers) =
      w.timers := by
    have hp : w.timers.live.popWhile (fun e => decide (e.1 ≤ now)) = w.timers.live := by rw [hl]; rfl
    rw [hp]
  simp only [emitDue, beginDue, hoppingNow, hpt, Bool.false_eq_true, and_false, ↓reduceIte, het,
    BoundedTimers.fireDue, hs]
  rw [hl]
  rfl

theorem CountRested.moved (hr : CountRested w₀ w)
    (hst : ∀ {s}, w.hub.Tracked s → (∃ s', hub.Tracked s') ∧ hub.binding = w.hub.binding) :
    CountRested w₀ { w with hub } := by
  obtain ⟨s, hs⟩ := hr.tracked
  obtain ⟨ht, hb⟩ := hst hs
  have hf := hr.frame
  exact ⟨⟨⟨hf.config, hf.timers, hf.clock, hf.cleared, hf.sound⟩, ht,
    hb.trans hr.binding⟩, hr.holdback, hr.index⟩

theorem soloStep_moved (hs : hub.Tracked s) (hst : SoloStep hub hub') :
    (∃ s', hub'.Tracked s') ∧ hub'.binding = hub.binding :=
  ⟨hst.tracked hs, hst.binding_eq⟩

/-- **An input leaves a count window at rest.** -/
theorem CountRested.step (hk : w₀.spec.kind = .count n) (hl : w₀.timers.live = .empty)
    (hre : CountRested w₀ w) (hsi : input.FromSingle) (hst : WindowOperator.step d w input = .ok (sent, w')) :
    CountRested w₀ w' := by
  have hk' : w.spec.kind = .count n := by rw [hre.frame.config]; exact hk
  have hl' : w.timers.live = .empty := by rw [hre.frame.timers]; exact hl
  have hd := emitDue_count (d := d) hk' hl'
  cases input with
  | batch rows now leases =>
    have hf := step_frame (.inr ⟨n, hk'⟩) hd hst
    rw [WindowOperator.step, hd] at hst
    obtain ⟨_, ⟨⟩, hst⟩ := bind_eq_ok.mp hst
    obtain ⟨⟨log, w₂⟩, he, hst⟩ := bind_eq_ok.mp hst
    obtain ⟨out, w₁, hro, he⟩ := emitted_ok he
    obtain ⟨ho, store, scratch, rfl⟩ := onRows_count hk' rfl hro
    obtain rfl := emitWindow_none ho he
    cases hst
    exact ⟨⟨hre.frame.trans hf, hre.tracked, hre.binding⟩, hre.holdback, hre.index⟩
  | watermark id wm =>
    obtain rfl : id = .single := hsi
    obtain rfl := onHub_count _ hre.holdback hst
    exact hre.moved fun hs => soloStep_moved hs (hs.setWatermark wm)
  | idle id =>
    obtain rfl : id = .single := hsi
    obtain rfl := onHub_count _ hre.holdback hst
    exact hre.moved fun hs => soloStep_moved hs hs.markIdle
  | active id =>
    obtain rfl : id = .single := hsi
    obtain rfl := onHub_count _ hre.holdback hst
    exact hre.moved fun hs => soloStep_moved hs hs.markActive
  | finish =>
    simp only [WindowOperator.step, finishInput] at hst
    have ha : CountRested w₀ { w with hub := (w.hub.markActive .single).2 } :=
      hre.moved fun hs => soloStep_moved hs hs.markActive
    rcases hr : w.hub.markActive .single with ⟨_ | _, hub⟩ <;> rw [hr] at hst ha
    · simp [emitted] at hst
    · obtain rfl := onHub_count (w := { w with hub }) (·.setWatermark .single i64Max) hre.holdback hst
      exact ha.moved fun hs => soloStep_moved hs (hs.setWatermark i64Max)
  | tick now =>
    rw [WindowOperator.step, hd] at hst
    obtain ⟨rfl, rfl⟩ : [] = sent ∧ w = w' := by simpa using hst
    exact hre

end Steps

/-! ### A continuation -/

/-- What both operators are fed: batches, with credit for the candidate accumulators, which a
restored operator takes again, and punctuations of the single input. -/
def Input.Continues : Input → Prop
  | .batch _ _ leases => ∀ i, leases i .scratch = .ok ()
  | .watermark id _ => id = .single
  | _ => False

variable {input : Input}

theorem Input.Continues.fromSingle (h : input.Continues) : input.FromSingle := by
  cases input with
  | batch => trivial
  | watermark => exact h
  | _ => cases h

section Alike

variable {w₀ w w' : WindowOperator} {d : Downstream} {sent log : List Report} {hub : WatermarkHub}
  {scratch : Bool} {size : Int64} {slide : Option Int64}

theorem SendsAlike.batch {rows : List Row} {leases : ℕ → Leases} (hd : w.emitDue d now = .ok ([], w))
    (hd' : (w.withClock hub scratch).emitDue d now = .ok ([], w.withClock hub scratch))
    (h : SendsAlike (emitted d (w.onBatchWithoutTimers leases rows now))
      (emitted d ((w.withClock hub scratch).onBatchWithoutTimers leases rows now))) :
    SendsAlike (step d w (.batch rows now leases))
      (step d (w.withClock hub scratch) (.batch rows now leases)) := by
  rw [step, step, hd, hd']
  simp only [bind, Except.bind]
  generalize emitted d (w.onBatchWithoutTimers leases rows now) = left at h
  generalize emitted d ((w.withClock hub scratch).onBatchWithoutTimers leases rows now) = right at h
  cases h with
  | error => exact .error
  | ok hh ho =>
    refine .ok hh ?_
    simp only [outputs, List.filter_append] at ho ⊢
    rw [ho]
    rfl

/-- What an event-time row needs to do the same to both. -/
structure Foldable (w₀ w : WindowOperator) : Prop where
  config : w.toWindowConfig = w₀.toWindowConfig
  store : ∃ state, w.store = .tumble state
  holdback : ∃ h, w.holdback = some h
  tracked : ∃ s, w.hub.Tracked s
  binding : w.hub.binding = w₀.spec.binding

theorem Foldable.onRow {leases : Leases} {row : Row} {one : WindowEmission}
    (hk : w₀.spec.kind.etWindow = some (size, slide)) (hw : Foldable w₀ w)
    (hr : w.onRow leases row now = (.ok one, w')) : Foldable w₀ w' := by
  obtain ⟨hc, ⟨state, hsto⟩, ⟨h, hh⟩, ⟨s, hs⟩, hb⟩ := hw
  have hk' : w.spec.kind.etWindow = some (size, slide) := by rw [hc]; exact hk
  obtain ⟨ts, scratch, -, ⟨-, -, rfl⟩ | ⟨-, windows, hub, pending, h', o, ho, -, -, -, -, rfl⟩⟩ :=
    onRow_ok hk' hsto hh hr
  · exact ⟨hc, ⟨state, hsto⟩, ⟨h, hh⟩, ⟨s, hs⟩, hb⟩
  · have hst : SoloStep w.hub hub := by
      unfold Observes at ho
      split_ifs at ho
      · exact ho ▸ .same
      · obtain ⟨p, hp⟩ := ho
        have hob := hs.observeEvent ts now
        rw [hp] at hob
        exact hob
    exact ⟨hc, ⟨_, rfl⟩, ⟨h', rfl⟩, hst.tracked hs, hst.binding_eq.trans hb⟩

/-- **An input does the same to an event-time window and to its twin.** -/
theorem EtRested.step_alike (hk : w₀.spec.kind.etWindow = some (size, slide))
    (hL : 0 ≤ (w₀.spec.latenessMicros : ℤ)) (hr : EtRested w₀ size log w) (hh : TwinHubs w.hub hub)
    (hc : input.Continues) : SendsAlike (WindowOperator.step d w input)
      (WindowOperator.step d (w.withClock hub scratch) input) := by
  have hk' : w.spec.kind.etWindow = some (size, slide) := by rw [hr.frame.config]; exact hk
  have het := usesEventTime_of_etWindow hk'
  obtain ⟨state, h, hke, hca⟩ := hr.kept
  cases input with
  | batch rows now leases =>
    refine .batch (emitDue_ok het) (emitDue_ok (w := w.withClock hub scratch) het) ?_
    have hco := hr.frame.config
    have hf : Foldable w₀ w := ⟨hco, ⟨state, hke.store⟩, ⟨h, hke.holdback⟩, hr.tracked, hr.binding⟩
    have hext : ∀ {w₁}, Foldable w₀ w₁ → w₁.externalWatermarks = w₀.externalWatermarks :=
      fun hw => by rw [hw.config]
    have hrow : Alike w₀.externalWatermarks h (w.onBatchWithoutTimers leases rows now)
        ((w.withClock hub scratch).onBatchWithoutTimers leases rows now) := by
      refine onRows_alike (I := Foldable w₀) ?_ (fun w₁ i row one w₂ hw hro => hw.onRow hk hro) hf hh
        (fun _ => hca) (Echo.none ..)
      intro w₁ hu₁ scratch₁ i row hw hh₁ hc₁
      obtain ⟨state₁, hs₁⟩ := hw.store
      have hro : Alike w₁.externalWatermarks h (w₁.onRow (leases i) row now)
          ((w₁.withClock hu₁ scratch₁).onRow (leases i) row now) := onRow_alike
        (by rw [hw.config]; exact hk) (hc i) hs₁ hh₁ (by rw [hw.binding, hw.config])
        (by rw [hext hw]; exact hc₁)
      rw [hext hw] at hro
      exact hro
    refine hrow.emitted fun _ one w₁ hon hc₁ => ?_
    -- the windows that the rows leave are open at the output watermark
    obtain ⟨state₁, h₁, hk₁, -⟩ := onRows_kept hk hL hke rfl (by simp [WindowEmission.none]) hon
    obtain rfl : h₁ = h := some.inj (hk₁.holdback.symm.trans hc₁.holdback)
    have he₁ : w₁.spec.kind.usesEventTime = true := by
      rw [hk₁.config]
      exact usesEventTime_of_etWindow hk
    refine ⟨not_isPtHopping he₁, fun o ho e he => ?_⟩
    obtain ⟨entry, hen, -, hs⟩ := hk₁.balanced.indexed.listed.mp (SortedMap.mem_entries_iff.mp he)
    have hop := hk₁.openAt o ho _ entry hen
    exact hs ▸ hop
  | watermark id wm =>
    obtain rfl : id = .single := hc
    exact (onHub_alike (h := h) hh).emitted (by simp)
  | _ => cases hc

/-- **An input does the same to a count window and to its twin.** -/
theorem CountRested.step_alike (hk : w₀.spec.kind = .count n) (hl : w₀.timers.live = .empty)
    (hr : CountRested w₀ w) (hh : TwinHubs w.hub hub) (hc : input.Continues) :
    SendsAlike (WindowOperator.step d w input)
      (WindowOperator.step d (w.withClock hub scratch) input) := by
  have hk' : w.spec.kind = .count n := by rw [hr.frame.config]; exact hk
  have hl' : w.timers.live = .empty := by rw [hr.frame.timers]; exact hl
  let h : OutputHoldback := { latenessMicros := 0, wmIn := none, wmOut := none }
  cases input with
  | batch rows now leases =>
    refine .batch (emitDue_count hk' hl' now) (emitDue_count (w := w.withClock hub scratch) hk' hl' now) ?_
    have hrow : Alike false h (w.onBatchWithoutTimers leases rows now)
        ((w.withClock hub scratch).onBatchWithoutTimers leases rows now) := by
      refine onRows_alike (I := fun w => w.spec.kind = .count n) ?_ ?_ hk' hh nofun rfl
      · intro w₁ hu₁ scratch₁ i row hw hh₁ _
        exact onRow_alike_count hw (hc i) hh₁
      · intro w₁ i row one w₂ hw hro
        obtain ⟨-, store, scratch₁, rfl⟩ := onRow_count hw hro
        exact hw
    exact hrow.emitted nofun
  | watermark id wm =>
    obtain rfl : id = .single := hc
    exact (onHub_alike (h := h) hh).emitted (by simp)
  | _ => cases hc

end Alike

/-- What each input sends apart from watermarks, and the freeze after it, up to the first error. -/
def trace (d : Downstream) : WindowOperator → List Input → List (Result (List Report × WindowFreeze))
  | _, [] => []
  | w, input :: rest =>
    match step d w input with
    | .error e => [.error e]
    | .ok (sent, w) => .ok (outputs sent, w.freeze) :: trace d w rest

variable {w : WindowOperator}

theorem freeze_withClock (scratch : Bool)
    (h : hub.lastEffective = w.hub.lastEffective) : (w.withClock hub scratch).freeze = w.freeze := by
  simp only [freeze, withClock, h]
  rfl

/-- **Twins stay twins**, if each input does the same to both and keeps what that takes. -/
theorem trace_alike {J : WindowOperator → Prop} {d : Downstream}
    (ha : ∀ {w hub scratch input}, J w → Input.Continues input → TwinHubs w.hub hub →
      SendsAlike (step d w input) (step d (w.withClock hub scratch) input))
    (hk : ∀ {w input sent w'}, J w → Input.Continues input → step d w input = .ok (sent, w') → J w')
    {scratch : Bool} {inputs : List Input} (hw : J w)
    (hh : TwinHubs w.hub hub) (hc : ∀ i ∈ inputs, Input.Continues i) :
    trace d (w.withClock hub scratch) inputs = trace d w inputs := by
  induction inputs generalizing w hub scratch with
  | nil => rfl
  | cons input rest ih =>
    obtain ⟨hi, hr⟩ := List.forall_mem_cons.mp hc
    have ho : SendsAlike (step d w input) (step d (w.withClock hub scratch) input) := ha hw hi hh
    have hn : ∀ sent w', step d w input = .ok (sent, w') → J w' := fun _ _ => hk hw hi
    rw [trace, trace]
    generalize hl : step d w input = left at ho hn
    generalize step d (w.withClock hub scratch) input = right at ho
    cases ho with
    | error => rfl
    | @ok log log' w' hub' scratch' hh' hou =>
      have hw' := hn log w' rfl
      dsimp only
      rw [hou, freeze_withClock scratch' hh'.effective, ih hw' hh' hr]

/-! ### From the start -/

variable {spec : WindowSpec}

variable {budgetKeys operator maxKeys : ℕ}

theorem newStore_sound {kind : WindowKind} {store : WindowStore}
    (hst : newStore kind operator maxKeys budgetKeys = .ok store) : store.Sound := by
  have hnew : ∀ {V : Type} (f : MemoryState V → WindowStore), (∀ s, s.Sound → (f s).Sound) →
      (MemoryState.new operator maxKeys budgetKeys).map f = .ok store → store.Sound := by
    intro V f hf hs
    unfold MemoryState.new at hs
    split_ifs at hs
    · simp [Except.map] at hs
    · cases hs
      exact hf _ ⟨nofun, Nat.zero_le _⟩
  unfold newStore at hst
  split at hst
  · exact hnew .count (fun _ hs => hs) hst
  · exact hnew .tumble (fun _ hs => hs) hst

theorem new_fresh {maxTimers : ℕ} {input : Schema} {external : Bool}
    {leases : Leases} : (new operator spec input budgetKeys maxKeys maxTimers
      external leases).Ensures fun w₀ =>
      w₀.spec = spec ∧ w₀.hub.Tracked .new ∧ w₀.hub.binding = spec.binding ∧ w₀.hub.lastEffective = none ∧
        w₀.timers.live = .empty ∧ w₀.closedIndex = .empty ∧
        newStore spec.kind operator maxKeys budgetKeys = .ok w₀.store ∧
          newHoldback spec = .ok w₀.holdback := by
  refine .bind fun _ _ => .bind fun _ _ => .bind fun _ _ => .bind fun _ _ => .bind fun _ _ => .bind fun _ _ =>
    .bind fun store hs => .bind fun hub hhu => ?_
  obtain rfl := ofBinding_ok hhu
  have hr : register { WatermarkHub.new with binding := spec.binding } 0 =
      (.ok (), { WatermarkHub.new with binding := spec.binding, inputs := solo .new }) := rfl
  rw [hr]
  refine .bind fun _ _ => .bind fun holdback hh => .bind fun _ _ => .bind fun timers ht => .ok ?_
  have hl : timers.live = .empty := by
    unfold BoundedTimers.new at ht
    split_ifs at ht
    exact Except.ok.inj ht ▸ rfl
  exact ⟨rfl, .new rfl, rfl, rfl, hl, rfl, hs, hh⟩

section Run

variable {operator budgetKeys maxKeys maxTimers : ℕ} {spec : WindowSpec} {input : Schema} {external : Bool}
  {leases : Leases} {d : Downstream} {w₀ w : WindowOperator} {history : List Input} {seen : List Report}

theorem run_etRested {size : Int64} {slide : Option Int64}
    (hnew : new operator spec input budgetKeys maxKeys maxTimers external leases = .ok w₀)
    (hki : spec.kind.etWindow = some (size, slide)) (hs : ∀ i ∈ history, i.FromSingle)
    (hru : run d w₀ history = .ok (seen, w)) : 0 ≤ (spec.latenessMicros : ℤ) ∧ EtRested w₀ size seen w := by
  obtain ⟨hsp, hL, state, hk⟩ := new_kept hki hnew
  obtain ⟨-, ht, hb, he, -⟩ := new_fresh hnew
  subst hsp
  refine ⟨hL, ?_⟩
  have hst : EtRested w₀ size [] w₀ :=
    ⟨⟨.refl w₀, ⟨_, ht⟩, hb⟩, state, _, hk, hk.holdback, hL, he.symm, rfl⟩
  exact Machine.runOk_induction (G := Input.FromSingle) (I := EtRested w₀ size)
    (fun log w i out w' hi hste hr => hr.step hki hL hi hste) hs hst hru

section

variable (hnew : new operator spec input budgetKeys maxKeys maxTimers external leases = .ok w₀)

include hnew

theorem run_countRested (hk : spec.kind = .count n) (hsi : ∀ i ∈ history, i.FromSingle)
    (hru : run d w₀ history = .ok (seen, w)) :
    CountRested w₀ w := by
  obtain ⟨hs, ht, hb, -, hl, -, -, hh⟩ := new_fresh hnew
  have hn : w₀.holdback = none := by
    rw [newHoldback, hk] at hh
    exact (Except.ok.inj hh).symm
  have hk' : w₀.spec.kind = .count n := by rw [hs]; exact hk
  have hst : CountRested w₀ w₀ := ⟨⟨.refl w₀, ⟨_, ht⟩, hs ▸ hb⟩, hn, rfl⟩
  exact Machine.runOk_invariant (G := Input.FromSingle) (P := CountRested w₀)
    (fun w i out w' hi hste hr => hr.step hk' hl hi hste) hsi hst hru

theorem Rested.used (hr : Rested w₀ w) (hi : w.IndexSound)
    (hh : w.holdback = w₀.holdback.map fun h => { h with wmIn := w.wmIn, wmOut := w.wmOut }) : Used w₀ w := by
  obtain ⟨-, -, -, -, hl, -, hs, -⟩ := new_fresh hnew
  have ht : w.timers = { w₀.timers with live := .empty } := by rw [hr.frame.timers, ← hl]
  exact ⟨hr.frame.config, hr.frame.cleared, hr.frame.sound (newStore_sound hs), hi, hh, ht,
    hr.frame.clock⟩

theorem Rested.twinHubs (hr : Rested w₀ w) (hac : ∀ s, w.hub.inputs.get? .single = some s →
    s.activity = .active) :
    TwinHubs w.hub { w₀.hub with lastEffective := w.hub.lastEffective } := by
  obtain ⟨hsp, ht, hb, -⟩ := new_fresh hnew
  obtain ⟨s, hs⟩ := hr.tracked
  have ha := hac s (by rw [hs.inputs, get?_solo])
  have hn : Tracked { w₀.hub with lastEffective := w.hub.lastEffective } .new :=
    .new ht.inputs
  refine ⟨⟨s, hs, ha⟩, ⟨.new, hn, rfl⟩, rfl, ?_⟩
  rw [hr.binding, hsp]
  exact hb

end

theorem restoreFreeze_eq (freeze : WindowFreeze) (credit : Leases) (hki : Restorable w₀.spec.kind) :
    w₀.restoreParticipantFreeze credit freeze = w₀.restoreFreezeInner credit freeze ∧
      w₀.restoreFreeze credit freeze =
        if hasExtendedAggs w₀.spec then .error noCodec else w₀.restoreFreezeInner credit freeze := by
  have hold : w₀.spec.kind.isNewWindow = false := by
    obtain ⟨p, hp⟩ | ⟨n, hn⟩ := hki
    · cases hk : w₀.spec.kind <;> rw [hk] at hp <;> first | rfl | cases hp
    · rw [hn]
      rfl
  constructor
  · simp [restoreParticipantFreeze, hold, refuseIf, bind, Except.bind]
  · cases he : hasExtendedAggs w₀.spec <;> simp [restoreFreeze, hold, he, refuseIf, bind, Except.bind]

end Run

/-- **A restore is transparent.** Take any run without errors of an event-time or count window fed by
the single input, and suppose that input is active at its end. A new operator restored from the
freeze then has that freeze, and every continuation sends the same rows, late rows and
finals from both, input by input, leaves equal freezes after each, and ends with the same error
if it ends with one. Aggregates added after the first codec are only restored for participants. -/
theorem restore_transparent {operator budgetKeys maxKeys maxTimers : ℕ} {spec : WindowSpec} {input : Schema}
    {external : Bool} {leases credit : Leases} {d : Downstream} {w₀ w : WindowOperator} {history : List Input}
    {seen : List Report}
    (hnew : new operator spec input budgetKeys maxKeys maxTimers external leases = .ok w₀)
    (hkind : Restorable spec.kind) (hsingle : ∀ i ∈ history, i.FromSingle)
    (hrun : run d w₀ history = .ok (seen, w))
    (hactive : ∀ s, w.hub.inputs.get? .single = some s → s.activity = .active)
    (hcredit : ∀ site, credit site = .ok ()) :
    ∃ r, w₀.restoreParticipantFreeze credit w.freeze = .ok r ∧
      w₀.restoreFreeze credit w.freeze = (if hasExtendedAggs spec then .error noCodec else .ok r) ∧
      r.freeze = w.freeze ∧
      ∀ continuation, (∀ i ∈ continuation, Input.Continues i) →
        trace d r continuation = trace d w continuation := by
  obtain ⟨hsp, -, -, -, hl, hin, hst, hho⟩ := new_fresh hnew
  have hk₀ : Restorable w₀.spec.kind := hsp ▸ hkind
  obtain ⟨hp, he⟩ := restoreFreeze_eq w.freeze credit hk₀
  rw [hp, he, hsp]
  obtain ⟨⟨size, slide⟩, het⟩ | ⟨n, hc⟩ := hkind
  · obtain ⟨hL, hr⟩ := run_etRested hnew het hsingle hrun
    obtain ⟨state, h, hk, -⟩ := hr.kept
    have hso : w.IndexSound := by
      unfold IndexSound
      rw [hk.store]
      exact hk.balanced.indexed
    obtain ⟨-, hh₀⟩ := newHoldback_ok (usesEventTime_of_etWindow het) hho
    have hhol : w.holdback = w₀.holdback.map fun h => { h with wmIn := w.wmIn, wmOut := w.wmOut } := by
      simp [hh₀, wmIn, wmOut, hk.holdback, ← hsp, ← hk.lateness]
    have hh := hr.toRested.twinHubs hnew hactive
    have hk' : w₀.spec.kind.etWindow = some (size, slide) := hsp ▸ het
    rw [restoreFreezeInner_ok (.inl (usesEventTime_of_etWindow hk')) hcredit
      (hr.toRested.used hnew hso hhol)]
    refine ⟨_, rfl, rfl, freeze_withClock false rfl, fun continuation hco => ?_⟩
    exact trace_alike (J := fun w => ∃ log, EtRested w₀ size log w)
      (fun h hi hh => h.elim fun _ hr => hr.step_alike hk' (hsp ▸ hL) hh hi)
      (fun h hi hste => h.imp' _ fun _ hr => hr.step hk' (hsp ▸ hL) hi.fromSingle hste)
      ⟨seen, hr⟩ hh
      hco
  · have hr := run_countRested hnew hc hsingle hrun
    have hk' : w₀.spec.kind = .count n := hsp ▸ hc
    have hn : w₀.holdback = none := by
      rw [newHoldback, hc] at hho
      exact (Except.ok.inj hho).symm
    -- the store is one of count windows
    obtain ⟨s, hs⟩ : ∃ s, w.store = .count s := by
      have hcl := hr.frame.cleared
      rw [hc, newStore] at hst
      cases hw : w.store with
      | count s => exact ⟨s, rfl⟩
      | tumble s =>
        unfold MemoryState.new at hst
        split_ifs at hst
        · simp [Except.map] at hst
        · rw [hw, ← Except.ok.inj hst] at hcl
          cases hcl
    have hso : w.IndexSound := by
      unfold IndexSound
      rw [hs]
      exact hr.index.trans hin
    rw [restoreFreezeInner_ok (.inr ⟨s, hs⟩) hcredit
      (hr.toRested.used hnew hso (by rw [hr.holdback, hn]; rfl))]
    refine ⟨_, rfl, rfl, freeze_withClock false rfl, fun continuation hco => ?_⟩
    exact trace_alike (J := CountRested w₀) (fun hr hi hh => hr.step_alike hk' hl hh hi)
      (fun hr hi hste => hr.step hk' hl hi.fromSingle hste) hr
      (hr.toRested.twinHubs hnew hactive) hco

/-- How much each input of a trace sent. -/
def sentCounts (t : List (Result (List Report × WindowFreeze))) : List (Option ℕ) :=
  t.map fun r => r.toOption.map fun sent => sent.1.length

def sampleFrozen : List Report × WindowOperator :=
  value (run sampleDownstream sampleTumble [.batch [sampleRow 5] 0 fun _ => .all]) (by decide)

/-- Then a row of the next window, a late row, and a punctuation past both windows. -/
def sampleContinuation : List Input :=
  [.batch [sampleRow 12] 0 fun _ => .all, .batch [sampleRow 3] 0 fun _ => .all, .watermark .single 20]

theorem restore_transparent_sample :
    ∃ r, sampleTumble.restoreFreeze .all sampleFrozen.2.freeze = .ok r ∧
      trace sampleDownstream r sampleContinuation = trace sampleDownstream sampleFrozen.2 sampleContinuation ∧
      sentCounts (trace sampleDownstream sampleFrozen.2 sampleContinuation) = [some 2, some 2, some 1] := by
  have hnew : new 0 (sampleSpec 0) sampleSchema 100 100 100 false .all = .ok sampleTumble := eq_value _
  have hru : run sampleDownstream sampleTumble [.batch [sampleRow 5] 0 fun _ => .all] =
      .ok (sampleFrozen.1, sampleFrozen.2) := eq_value (by decide)
  have ha : ∀ s, sampleFrozen.2.hub.inputs.get? .single = some s → s.activity = .active := by
    have h : ((sampleFrozen.2.hub.inputs.get? .single).all fun s => s.activity = .active) = true := by decide
    intro s hs
    simpa [hs] using h
  obtain ⟨r, -, hr, -, ht⟩ := restore_transparent hnew (.inl ⟨_, rfl⟩)
    (by simp [Input.FromSingle]) hru ha fun site => (rfl : Leases.all site = .ok ())
  refine ⟨r, hr, ht sampleContinuation ?_, by decide⟩
  simp [sampleContinuation, Input.Continues, Leases.all]

/-- The input went idle before the freeze. -/
def sampleIdle : List Report × WindowOperator :=
  value (run sampleDownstream sampleTumble [.batch [sampleRow 5] 0 fun _ => .all, .idle .single])
    (by decide)

/-- **An idle input is forgotten.** The original ignores a punctuation of its idle input; the restored
operator, whose input is active, sends the window. -/
theorem idle_forgotten :
    run sampleDownstream sampleTumble [.batch [sampleRow 5] 0 fun _ => .all, .idle .single] = .ok sampleIdle ∧
      ∃ r, sampleTumble.restoreFreeze .all sampleIdle.2.freeze = .ok r ∧
        sentCounts (trace sampleDownstream sampleIdle.2 [.watermark .single 20]) = [some 0] ∧
        sentCounts (trace sampleDownstream r [.watermark .single 20]) = [some 1] := by
  let r := value (sampleTumble.restoreFreeze .all sampleIdle.2.freeze) (by decide)
  exact ⟨eq_value _, r, eq_value (by decide), by decide, by decide⟩

end WindowOperator

end Sparrow.Runtime
