import Sparrow.Runtime.Watermark

/-!
# A hub with a single input

With one input the committed watermark is a running maximum: while the input is active, an event
or a punctuation raises it to the watermark that this event or punctuation stands for, whatever
the input's own watermark and largest event time are. Two such hubs with the same committed
watermark are thus moved alike.
-/

namespace Sparrow.Runtime.WatermarkHub

open Library Model Option

/-- The later of a watermark, if there is one, and another. -/
def later : Option ℤ → ℤ → ℤ
  | some e, m => max e m
  | none, m => m

theorem le_later (e : Option ℤ) (m : ℤ) : m ≤ later e m := by
  cases e with
  | none => exact le_rfl
  | some e => exact le_max_right e m

theorem later_later {e own : Option ℤ} (h : ∀ m, own = some m → ∃ e', e = some e' ∧ m ≤ e') (m : ℤ) :
    later e (later own m) = later e m := by
  cases own with
  | none => rfl
  | some m' =>
    obtain ⟨e', rfl, hle⟩ := h m' rfl
    simp only [later]
    omega

def generated (binding : Option EventTimeBinding) (eventTime : ℤ) : ℤ :=
  match binding with
  | some bind => max (satSubI eventTime bind.outOfOrdernessMicros) 0
  | none => eventTime

theorem generated_mono (binding : Option EventTimeBinding) {t t' : ℤ} (h : t ≤ t') :
    generated binding t ≤ generated binding t' := by
  cases binding with
  | none => exact h
  | some bind =>
    simp only [generated, satSubI, clampI64]
    omega

def solo (s : InputState) : SortedMap InputId InputState := SortedMap.empty.insert .single s

theorem get?_solo (s : InputState) : (solo s).get? .single = some s := SortedMap.get?_insert_self ..

theorem modify_solo (s : InputState) (f : InputState → InputState) :
    (solo s).modify .single f = solo (f s) := SortedMap.modify_insert ..

section

variable {h : WatermarkHub} {s : InputState}

theorem progress_solo (hs : h.inputs = solo s) :
    h.progress = if s.activity = .active then s.wm.map (later h.lastEffective) else none := by
  have hen : h.inputs.entries = [(.single, s)] := by rw [hs]; rfl
  have he : h.effective = if s.activity = .active then s.wm else none := by
    unfold effective allIdle anyActiveUninitialized SortedMap.size
    rw [hen]
    cases ha : s.activity <;> cases hwm : s.wm <;> simp [minActive, ha, hwm]
  unfold progress
  rw [he]
  split_ifs
  · cases s.wm with
    | none => rfl
    | some m =>
      cases h.lastEffective with
      | none => rfl
      | some e =>
        simp only [map_some, later]
        split_ifs with hlt
        · rw [max_eq_left hlt.le]
        · rw [max_eq_right (not_lt.mp hlt)]
  · rfl

/-- The only input changed, and what is then committed. -/
def soloCommit (h : WatermarkHub) (s : InputState) : Option ℤ × WatermarkHub :=
  let p := if s.activity = .active then s.wm.map (later h.lastEffective) else none
  (p, { h with inputs := solo s, lastEffective := p.or h.lastEffective })

theorem commit_solo (hs : h.inputs = solo s) (f : InputState → InputState) :
    h.commit .single f = (.ok (h.soloCommit (f s)).1, (h.soloCommit (f s)).2) := by
  have hr : h.register .single = (.ok (), h) := by simp [register, hs, get?_solo]
  rw [commit, hr]
  simp only [hs, modify_solo, commitProgress_eq, progress_solo (h := { h with inputs := solo (f s) }) rfl]
  rfl

/-- **What holds of the only input.** While it is active its watermark is covered by the committed
one; the watermark its largest event time stands for is covered by its own. -/
structure Tracked (h : WatermarkHub) (s : InputState) : Prop where
  inputs : h.inputs = solo s
  committed : s.activity = .active → ∀ m, s.wm = some m → ∃ e, h.lastEffective = some e ∧ m ≤ e
  observed : h.binding.isSome → ∀ t, s.maxEventTime = some t → ∃ m, s.wm = some m ∧ generated h.binding t ≤ m

theorem Tracked.new (hs : h.inputs = solo .new) : h.Tracked .new := ⟨hs, nofun, nofun⟩

theorem Tracked.soloCommit
    (ho : h.binding.isSome → ∀ t, s.maxEventTime = some t → ∃ m, s.wm = some m ∧ generated h.binding t ≤ m) :
    (h.soloCommit s).2.Tracked s := by
  refine ⟨rfl, fun ha m hm => ⟨later h.lastEffective m, ?_, le_later ..⟩, ho⟩
  simp [WatermarkHub.soloCommit, ha, hm]

theorem wm_raise (s : InputState) (wm : ℤ) : (s.raise wm).wm = some (later s.wm wm) := by
  unfold InputState.raise
  cases hwm : s.wm with
  | none => rfl
  | some prev =>
    simp only [later]
    split_ifs with hlt
    · rw [hwm, max_eq_left hlt.le]
    · rw [max_eq_right (not_lt.mp hlt)]

theorem maxEventTime_raise (s : InputState) (wm : ℤ) : (s.raise wm).maxEventTime = s.maxEventTime := by
  unfold InputState.raise
  cases s.wm with
  | none => rfl
  | some prev => dsimp only; split_ifs <;> rfl

theorem Tracked.raise (ht : h.Tracked s) (wm : ℤ) :
    h.binding.isSome → ∀ t, (s.raise wm).maxEventTime = some t →
      ∃ m, (s.raise wm).wm = some m ∧ generated h.binding t ≤ m := by
  intro hb t hti
  rw [maxEventTime_raise] at hti
  obtain ⟨m, hm, hle⟩ := ht.observed hb t hti
  refine ⟨_, wm_raise s wm, hle.trans ?_⟩
  rw [hm, later]
  exact le_max_left m wm

def afterEvent (h : WatermarkHub) (s : InputState) (eventTime : ℤ) : InputState :=
  (s.observe eventTime).raise
    (generated h.binding (if h.binding.isSome then s.nextMax eventTime else eventTime))

theorem Tracked.observe (eventTime : ℤ) :
    h.binding.isSome → ∀ t, (h.afterEvent s eventTime).maxEventTime = some t →
      ∃ m, (h.afterEvent s eventTime).wm = some m ∧ generated h.binding t ≤ m := by
  intro hb t ht
  rw [afterEvent, maxEventTime_raise] at ht
  obtain rfl : s.nextMax eventTime = t := some.inj ht
  refine ⟨_, wm_raise .., ?_⟩
  rw [if_pos hb]
  exact le_later ..

variable {eventTime now : ℤ}

theorem observeEvent_solo (hs : h.inputs = solo s) (hn : 0 ≤ eventTime)
    (hsk : (h.binding.bind (·.maxFutureSkewMicros)).any (fun skew => eventTime > satAddI now skew) = false) :
    h.observeEvent .single eventTime now =
      (.ok (h.soloCommit (h.afterEvent s eventTime)).1, (h.soloCommit (h.afterEvent s eventTime)).2) := by
  have hr : h.register .single = (.ok (), h) := by simp [register, hs, get?_solo]
  have hse : ∀ wm, 0 ≤ wm → setWatermark { h with inputs := h.inputs.modify .single (.observe eventTime) } .single wm =
      (.ok (h.soloCommit ((s.observe eventTime).raise wm)).1, (h.soloCommit ((s.observe eventTime).raise wm)).2) := by
    intro wm hwm
    rw [setWatermark, if_neg (not_lt.mpr hwm), commit_solo (s := s.observe eventTime) (by rw [hs, modify_solo])]
    rfl
  unfold observeEvent afterEvent
  rw [if_neg (not_lt.mpr hn), hr]
  cases hb : h.binding with
  | none => exact hse eventTime hn
  | some bind =>
    simp only [hb, bind_some] at hsk
    have hg : h.inputs.get? .single = some s := by rw [hs, get?_solo]
    simp only [hsk, Bool.false_eq_true, ↓reduceIte, hg, map_some, getD_some]
    exact hse _ (le_max_right _ _)

/-! ### Any call -/

/-- One call on a hub with one input: nothing, or a change of the input that is then committed. -/
inductive SoloStep (h : WatermarkHub) : WatermarkHub → Prop where
  | same : SoloStep h h
  /-- The input became `s`. -/
  | commit (s : InputState)
      (hobs : h.binding.isSome → ∀ t, s.maxEventTime = some t → ∃ m, s.wm = some m ∧ generated h.binding t ≤ m) :
      SoloStep h (h.soloCommit s).2

variable {h' : WatermarkHub}

theorem SoloStep.tracked (hs : SoloStep h h') (ht : h.Tracked s) : ∃ s', h'.Tracked s' := by
  cases hs with
  | same => exact ⟨s, ht⟩
  | commit s' ho => exact ⟨s', .soloCommit ho⟩

theorem SoloStep.binding_eq (hs : SoloStep h h') : h'.binding = h.binding := by
  cases hs <;> rfl

theorem Tracked.markIdle (ht : h.Tracked s) : SoloStep h (h.markIdle .single).2 := by
  rw [WatermarkHub.markIdle, commit_solo ht.inputs]
  exact .commit _ ht.observed

theorem Tracked.markActive (ht : h.Tracked s) : SoloStep h (h.markActive .single).2 := by
  rw [WatermarkHub.markActive, commit_solo ht.inputs]
  exact .commit _ ht.observed

theorem Tracked.setWatermark (ht : h.Tracked s) (wm : ℤ) : SoloStep h (h.setWatermark .single wm).2 := by
  rw [WatermarkHub.setWatermark]
  split_ifs
  · exact .same
  · rw [commit_solo ht.inputs]
    exact .commit _ (ht.raise wm)

theorem Tracked.observeEvent (ht : h.Tracked s) (eventTime now : ℤ) :
    SoloStep h (h.observeEvent .single eventTime now).2 := by
  by_cases hn : eventTime < 0
  · simp only [WatermarkHub.observeEvent, hn, ↓reduceIte]
    exact .same
  · cases hs : (h.binding.bind (·.maxFutureSkewMicros)).any (fun skew => eventTime > satAddI now skew) with
    | false =>
      rw [observeEvent_solo ht.inputs (not_lt.mp hn) hs]
      exact .commit _ (Tracked.observe eventTime)
    | true =>
      cases hb : h.binding with
      | none => simp [hb] at hs
      | some bind =>
        rw [hb, bind_some] at hs
        simp only [WatermarkHub.observeEvent, hn, ↓reduceIte, hb, hs]
        exact .same

/-! ### The running maximum -/

theorem Tracked.progress_eq (ht : h.Tracked s) (ha : s.activity = .active) :
    h.progress = none ∨ h.progress = h.lastEffective := by
  rw [progress_solo ht.inputs, if_pos ha]
  cases hm : s.wm with
  | none => exact .inl rfl
  | some m =>
    obtain ⟨e, he, hle⟩ := ht.committed ha m hm
    refine .inr ?_
    rw [he, map_some, later, max_eq_left hle]

structure Reports (h : WatermarkHub) (s : InputState) : Prop where
  tracked : h.Tracked s
  active : s.activity = .active
  wm : s.wm.isSome

theorem Reports.progress_eq (hr : h.Reports s) : h.progress = h.lastEffective := by
  refine (hr.tracked.progress_eq hr.active).resolve_left fun hn => ?_
  obtain ⟨m, hm⟩ := Option.isSome_iff_exists.mp hr.wm
  simp [progress_solo hr.tracked.inputs, hr.active, hm] at hn

/-- The hub after its only input became `s` and its committed watermark `e`. -/
def movedTo (h : WatermarkHub) (s : InputState) (e : ℤ) : WatermarkHub :=
  { h with inputs := solo s, lastEffective := some e }

theorem soloCommit_eq {e m : ℤ} (ha : s.activity = .active) (hm : s.wm = some m)
    (he : later h.lastEffective m = e) : h.soloCommit s = (some e, h.movedTo s e) := by
  simp only [WatermarkHub.soloCommit, ha, ↓reduceIte, hm, map_some, he, some_or, movedTo]

/-- **A punctuation** raises the committed watermark to it. -/
theorem Tracked.setWatermark_eq (ht : h.Tracked s) (ha : s.activity = .active) {wm : ℤ} (hwm : 0 ≤ wm) :
    ∃ s', h.setWatermark .single wm = (.ok (some (later h.lastEffective wm)), h.movedTo s' (later h.lastEffective wm)) ∧
      (h.movedTo s' (later h.lastEffective wm)).Reports s' := by
  have hac : (s.raise wm).activity = .active := s.activity_raise wm ▸ ha
  have hc := soloCommit_eq hac (wm_raise s wm) (later_later (ht.committed ha) wm)
  have htr := Tracked.soloCommit (ht.raise wm)
  rw [hc] at htr
  refine ⟨s.raise wm, ?_, htr, hac, s.isSome_wm_raise wm⟩
  rw [WatermarkHub.setWatermark, if_neg (not_lt.mpr hwm), commit_solo ht.inputs, hc]

/-- **An event** raises the committed watermark to the one it stands for. -/
theorem Tracked.observeEvent_eq (ht : h.Tracked s) (ha : s.activity = .active) (hn : 0 ≤ eventTime)
    (hs : (h.binding.bind (·.maxFutureSkewMicros)).any (fun skew => eventTime > satAddI now skew) = false) :
    ∃ s', h.observeEvent .single eventTime now =
        (.ok (some (later h.lastEffective (generated h.binding eventTime))),
          h.movedTo s' (later h.lastEffective (generated h.binding eventTime))) ∧
      (h.movedTo s' (later h.lastEffective (generated h.binding eventTime))).Reports s' := by
  have hac : (h.afterEvent s eventTime).activity = .active := by
    rw [afterEvent, InputState.activity_raise]
    rfl
  -- the largest event time before this one is covered already
  have hco : later h.lastEffective (generated h.binding
        (if h.binding.isSome then s.nextMax eventTime else eventTime)) =
      later h.lastEffective (generated h.binding eventTime) := by
    split_ifs with hb
    · cases hma : s.maxEventTime with
      | none => simp [InputState.nextMax, hma]
      | some t =>
        obtain ⟨m, hm, hle⟩ := ht.observed hb t hma
        obtain ⟨e, he, hme⟩ := ht.committed ha m hm
        simp only [InputState.nextMax, hma, map_some, getD_some, he, later]
        rcases le_total t eventTime with h' | h'
        · rw [max_eq_right h']
        · have := generated_mono h.binding h'
          rw [max_eq_left h']
          omega
    · rfl
  have hwm : (h.afterEvent s eventTime).wm = some (later s.wm (generated h.binding
      (if h.binding.isSome then s.nextMax eventTime else eventTime))) := wm_raise ..
  have hc := soloCommit_eq hac hwm ((later_later (ht.committed ha) _).trans hco)
  have htr := Tracked.soloCommit (h := h) (Tracked.observe (s := s) eventTime)
  rw [hc] at htr
  refine ⟨h.afterEvent s eventTime, ?_, htr, hac, InputState.isSome_wm_raise ..⟩
  rw [observeEvent_solo ht.inputs hn hs, hc]

end

end Sparrow.Runtime.WatermarkHub
