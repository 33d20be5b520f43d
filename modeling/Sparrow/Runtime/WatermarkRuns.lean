import Mathlib.Data.List.Induction
import Mathlib.Order.Bounds.Basic
import Mathlib.Order.MinMax
import Sparrow.Runtime.Watermark

/-!
# The watermark hub over whole runs

Any calls on a hub, with any inputs and values, errors included. An input that goes idle
leaves the minimum and may come back with a low watermark, so the minimum over the active
inputs goes up and down; what the hub commits is its running maximum.

## What is proved

* `Called.grows` — no call lowers a watermark or a largest event time of an input.
-/

namespace Sparrow.Runtime

open Library Model SortedMap List Option

/-- A value that has not gone back: one that was there is still there or larger. -/
def Upward (a b : Option ℤ) : Prop := ∀ w, a = some w → ∃ w', b = some w' ∧ w ≤ w'

theorem Upward.refl (a : Option ℤ) : Upward a a := fun w h => ⟨w, h, le_rfl⟩

theorem Upward.trans {a b c : Option ℤ} (hab : Upward a b) (hbc : Upward b c) : Upward a c := by
  intro w hw
  obtain ⟨w', hw', hle⟩ := hab w hw
  obtain ⟨w'', hw'', hl'⟩ := hbc w' hw'
  exact ⟨w'', hw'', hle.trans hl'⟩

/-- What a call may do to an input: its watermark and its largest event time do not go back. -/
structure InputState.Grows (s s' : InputState) : Prop where
  wm : Upward s.wm s'.wm
  maxEventTime : Upward s.maxEventTime s'.maxEventTime

variable {s : InputState} {h : WatermarkHub} {id : InputId}

namespace InputState

theorem Grows.refl (s : InputState) : s.Grows s := ⟨.refl _, .refl _⟩

theorem Grows.trans {s' s'' : InputState} (h : s.Grows s') (h' : s'.Grows s'') : s.Grows s'' :=
  ⟨h.wm.trans h'.wm, h.maxEventTime.trans h'.maxEventTime⟩

theorem grows_raise (s : InputState) (wm : ℤ) : s.Grows (s.raise wm) := by
  unfold raise
  cases hwm : s.wm with
  | none => exact ⟨by simp [hwm, Upward], .refl _⟩
  | some prev =>
    dsimp only
    split_ifs with hlt
    · exact .refl s
    · refine ⟨fun w hw => ⟨wm, rfl, ?_⟩, .refl _⟩
      cases hwm.symm.trans hw
      exact not_lt.mp hlt

theorem grows_observe (s : InputState) (eventTime : ℤ) : s.Grows (s.observe eventTime) := by
  refine ⟨.refl _, fun w hw => ⟨s.nextMax eventTime, rfl, ?_⟩⟩
  simp [nextMax, hw]

end InputState

namespace WatermarkHub

/-! ### The minimum over the active inputs -/

/-- Some input is active, and every active one has a watermark. -/
def Ready (h : WatermarkHub) : Prop :=
  (∃ e ∈ h.inputs.entries, e.2.activity = .active) ∧ ∀ e ∈ h.inputs.entries, e.2.activity = .active → e.2.wm.isSome

def activeWms (h : WatermarkHub) : Set ℤ :=
  {w | ∃ e ∈ h.inputs.entries, e.2.activity = .active ∧ e.2.wm = some w}

/-- The minimum over the active inputs, where there is one. -/
def Low (h : WatermarkHub) (m : ℤ) : Prop := h.Ready ∧ IsLeast h.activeWms m

/-- The loop goes down from `least`, where there is one, to the smallest watermark of an active input. -/
theorem minActive_isLeast {l : List (InputId × InputState)} (h : ∀ e ∈ l, e.2.activity = .active → e.2.wm.isSome)
    {least : Option ℤ} (ha : least.isSome ∨ ∃ e ∈ l, e.2.activity = .active) :
    ∃ m, minActive least l = some m ∧
      IsLeast {w | least = some w ∨ ∃ e ∈ l, e.2.activity = .active ∧ e.2.wm = some w} m := by
  induction l generalizing least with
  | nil =>
    obtain ⟨m, rfl⟩ := Option.isSome_iff_exists.mp (ha.resolve_right (by simp))
    exact ⟨m, rfl, .inl rfl, by simp [lowerBounds]⟩
  | cons e rest ih =>
    have hr : ∀ e ∈ rest, e.2.activity = .active → e.2.wm.isSome := fun e he => h e (mem_cons_of_mem _ he)
    simp only [exists_mem_cons_iff] at ha ⊢
    rw [minActive]
    split_ifs with hi
    · simp only [hi, false_and, false_or] at ha ⊢
      exact ih hr ha
    · rw [not_not] at hi
      obtain ⟨wm, hwm⟩ := Option.isSome_iff_exists.mp (h e mem_cons_self hi)
      obtain ⟨m, hm, hf, hl⟩ := ih hr (.inl (isSome_some (a := (least.map fun m => min m wm).getD wm)))
      simp only [hwm, hi, true_and]
      refine ⟨m, hm, ?_, fun w hw => ?_⟩
      · simp only [Set.mem_ofPred_eq] at hf ⊢
        cases least <;> grind
      · have hmi := hl (.inl rfl)
        have hla (hw) := hl (.inr hw : _ ∨ ∃ e ∈ rest, e.2.activity = .active ∧ e.2.wm = some w)
        simp only [Set.mem_ofPred_eq] at hw
        cases least <;> grind

theorem effective_of_ready (hr : h.Ready) : h.effective = minActive none h.inputs.entries := by
  obtain ⟨⟨e, he, ha⟩, hin⟩ := hr
  have hs : h.inputs.size ≠ 0 := by simpa [size] using ne_nil_of_mem he
  have hi : h.allIdle = false := by
    have : ¬ ∀ e ∈ h.inputs.entries, e.2.activity = .idle := fun hal => by simp [hal e he] at ha
    simpa [allIdle, hs] using this
  have hu : h.anyActiveUninitialized = false := by
    simp only [anyActiveUninitialized, List.any_eq_false]
    rintro e he
    simp only [decide_eq_true_eq, not_and]
    intro ha hn
    simpa [hn] using hin e he ha
  simp [effective, hs, hi, hu]

theorem effective_of_not_ready (hr : ¬ h.Ready) : h.effective = none := by
  unfold effective
  split_ifs with hs hi hu
  · rfl
  · rfl
  · rfl
  · refine absurd ⟨?_, ?_⟩ hr
    · by_contra hal
      refine hi ?_
      simp only [allIdle, decide_eq_true_eq, List.all_eq_true]
      refine ⟨hs, fun e he => ?_⟩
      cases ha : e.2.activity with
      | idle => rfl
      | active => exact absurd ⟨e, he, ha⟩ hal
    · intro e he ha
      by_contra hn
      refine hu (List.any_eq_true.mpr ⟨e, he, ?_⟩)
      simpa [ha] using hn

/-- **The effective watermark is the minimum over the active inputs.** -/
theorem effective_eq_some_iff {m : ℤ} : h.effective = some m ↔ h.Low m := by
  by_cases hr : h.Ready
  · obtain ⟨m', hm', hl⟩ := minActive_isLeast hr.2 (.inr hr.1 : (none : Option ℤ).isSome ∨ _)
    replace hl : IsLeast h.activeWms m' := by simpa [activeWms] using hl
    rw [effective_of_ready hr, hm', some.injEq]
    constructor
    · rintro rfl
      exact ⟨hr, hl⟩
    · exact fun hm => hl.unique hm.2
  · simp only [effective_of_not_ready hr, reduceCtorEq, Low, hr, false_and]

/-! ### One call -/

inductive Call where
  | register (id : InputId)
  | markIdle (id : InputId)
  | markActive (id : InputId)
  | observeEvent (id : InputId) (eventTime nowMicros : ℤ)
  | setWatermark (id : InputId) (wm : ℤ)

def call (h : WatermarkHub) : Call → Result (Option ℤ) × WatermarkHub
  | .register id => ((h.register id).1.map fun _ => none, (h.register id).2)
  | .markIdle id => h.markIdle id
  | .markActive id => h.markActive id
  | .observeEvent id eventTime nowMicros => h.observeEvent id eventTime nowMicros
  | .setWatermark id wm => h.setWatermark id wm

def run (h : WatermarkHub) (calls : List Call) : WatermarkHub := calls.foldl (fun h c => (h.call c).2) h

theorem register_keeps {inputs : SortedMap InputId InputState} (hr : h.register id = (.ok (), { h with inputs }))
    {k : InputId} (hk : h.inputs.get? k = some s) : inputs.get? k = some s := by
  unfold register at hr
  split_ifs at hr with ht
  · obtain rfl : h.inputs = inputs := congrArg (fun r => r.2.inputs) hr
    exact hk
  · exact absurd (congrArg Prod.fst hr) nofun
  · obtain rfl : h.inputs.insert id .new = inputs := congrArg (fun r => r.2.inputs) hr
    have hne : k ≠ id := by
      rintro rfl
      exact ht (by rw [hk]; rfl)
    rw [get?_insert_of_ne _ _ hne, hk]

/-- What a call does: nothing, register a new input, or register one, let it grow and commit. -/
inductive Called (h : WatermarkHub) : WatermarkHub → Prop where
  | same : Called h h
  | registered (id : InputId) (hnew : h.inputs.get? id = none) : Called h { h with inputs := h.inputs.insert id .new }
  | committed (inputs : SortedMap InputId InputState) (id : InputId) (f : InputState → InputState)
      (hkeeps : ∀ {k s}, h.inputs.get? k = some s → inputs.get? k = some s) (hgrows : ∀ s : InputState, s.Grows (f s)) :
      Called h (commitProgress { h with inputs := inputs.modify id f }).2

theorem called_commit (h : WatermarkHub) (id : InputId) {f : InputState → InputState}
    (hg : ∀ s : InputState, s.Grows (f s)) : Called h (h.commit id f).2 := by
  unfold commit
  obtain ⟨inputs, hr, -⟩ | ⟨e, hr⟩ := register_cases h id
  · rw [hr]
    exact .committed inputs id f (register_keeps hr) hg
  · rw [hr]
    exact .same

theorem called_call (h : WatermarkHub) : ∀ c, Called h (h.call c).2
  | .register id => by
    rw [call, register]
    split_ifs with ht
    · exact .same
    · exact .same
    · exact .registered id (by simpa using ht)
  | .markIdle id => called_commit h id fun _ => ⟨.refl _, .refl _⟩
  | .markActive id => called_commit h id fun _ => ⟨.refl _, .refl _⟩
  | .observeEvent id eventTime nowMicros => by
    obtain hs | ⟨wm, hc⟩ := observeEvent_cases h id eventTime nowMicros
    · rw [call, hs]
      exact .same
    · rw [call, hc]
      exact called_commit h id fun s => (s.grows_observe eventTime).trans (InputState.grows_raise _ wm)
  | .setWatermark id wm => by
    rw [call, setWatermark]
    split_ifs
    · exact .same
    · exact called_commit h id fun s => s.grows_raise wm

/-- **No call lowers a watermark or a largest event time of an input**, and none removes an input. -/
theorem Called.grows {h' : WatermarkHub} (hc : Called h h') (hs : h.inputs.get? id = some s) :
    ∃ s', h'.inputs.get? id = some s' ∧ s.Grows s' := by
  cases hc with
  | same => exact ⟨s, hs, .refl s⟩
  | registered id' hn =>
    have hne : id ≠ id' := by
      rintro rfl
      rw [hn] at hs
      cases hs
    exact ⟨s, by rw [get?_insert_of_ne _ _ hne, hs], .refl s⟩
  | committed inputs id' f hk hg =>
    rw [commitProgress_eq, get?_modify, hk hs]
    split_ifs
    · exact ⟨f s, rfl, hg s⟩
    · exact ⟨s, rfl, .refl s⟩

theorem progress_or_lastEffective (h : WatermarkHub) :
    h.progress.or h.lastEffective = match h.effective with
      | none => h.lastEffective
      | some m => some ((h.lastEffective.map (max m)).getD m) := by
  unfold progress
  cases h.effective with
  | none => rfl
  | some m =>
    cases h.lastEffective with
    | none => rfl
    | some prev =>
      dsimp only [map_some, getD_some]
      split_ifs with hlt
      · rw [max_eq_right hlt.le, some_or]
      · rw [max_eq_left (not_lt.mp hlt), some_or]

/-- **A call commits the running maximum of the minimum over the active inputs.** -/
theorem Called.lastEffective {h' : WatermarkHub} (hc : Called h h') :
    h' = h ∨ h'.lastEffective = match h'.effective with
      | none => h.lastEffective
      | some m => some ((h.lastEffective.map (max m)).getD m) := by
  cases hc with
  | same => exact .inl rfl
  | registered id hn =>
    right
    -- the new input is active and has no watermark
    have hr : ¬ Ready { h with inputs := h.inputs.insert id .new } := fun hr => by
      have := hr.2 (id, .new) (mem_entries_iff.mpr (get?_insert_self ..)) rfl
      cases this
    rw [effective_of_not_ready hr]
  | committed inputs id f hk hg =>
    right
    rw [commitProgress_eq]
    exact progress_or_lastEffective _

/-! ### Whole runs -/

theorem run_concat (h : WatermarkHub) (calls : List Call) (c : Call) :
    h.run (calls ++ [c]) = ((h.run calls).call c).2 := by
  rw [run, foldl_concat]
  rfl

theorem run_append (h : WatermarkHub) (pre post : List Call) :
    h.run (pre ++ post) = (h.run pre).run post := foldl_append ..

theorem run_grows (h : WatermarkHub) (calls : List Call) (hs : h.inputs.get? id = some s) :
    ∃ s', (h.run calls).inputs.get? id = some s' ∧ s.Grows s' := by
  induction calls using List.reverseRecOn with
  | nil => exact ⟨s, hs, .refl s⟩
  | append_singleton calls c ih =>
    obtain ⟨s', hs', hg⟩ := ih
    obtain ⟨s'', hs'', hg'⟩ := (called_call (h.run calls) c).grows hs'
    exact ⟨s'', run_concat h calls c ▸ hs'', hg.trans hg'⟩

/-- The minima over the active inputs so far. -/
def lows (h : WatermarkHub) (calls : List Call) : Set ℤ := {m | ∃ pre, pre <+: calls ∧ (h.run pre).Low m}

theorem lows_concat (h : WatermarkHub) (calls : List Call) (c : Call) :
    h.lows (calls ++ [c]) = h.lows calls ∪ {m | (h.run (calls ++ [c])).Low m} := by
  ext m
  constructor
  · rintro ⟨pre, hp, hm⟩
    obtain rfl | hp := List.prefix_concat_iff.mp hp
    · exact .inr hm
    · exact .inl ⟨pre, hp, hm⟩
  · rintro (⟨pre, hp, hm⟩ | hm)
    · exact ⟨pre, hp.trans (prefix_append _ _), hm⟩
    · exact ⟨_, prefix_rfl, hm⟩

theorem lastEffective_isGreatest (hi : h.inputs = .empty) (hl : h.lastEffective = none) (calls : List Call) :
    match (h.run calls).lastEffective with
    | none => h.lows calls = ∅
    | some m => IsGreatest (h.lows calls) m := by
  induction calls using List.reverseRecOn with
  | nil =>
    have hr : ¬ h.Ready := fun hr => by
      obtain ⟨⟨e, he, -⟩, -⟩ := hr
      rw [hi] at he
      cases he
    rw [show h.run [] = h from rfl, hl]
    refine Set.eq_empty_of_forall_notMem ?_
    rintro m ⟨pre, hpr, hm⟩
    rw [List.prefix_nil.mp hpr] at hm
    exact hr hm.1
  | append_singleton calls c ih =>
    rw [lows_concat, run_concat]
    obtain hs | hl' := (called_call (h.run calls) c).lastEffective
    · -- the hub is as it was, and so are its minima
      have hsu : {m | (h.run calls).Low m} ⊆ h.lows calls := fun m hm => ⟨calls, prefix_rfl, hm⟩
      rw [hs, Set.union_eq_self_of_subset_right hsu]
      exact ih
    · generalize ((h.run calls).call c).2 = h' at *
      rw [hl']
      cases hef : h'.effective with
      | none =>
        have hem : {m | h'.Low m} = ∅ := by
          refine Set.eq_empty_of_forall_notMem fun m hm => ?_
          rw [effective_eq_some_iff.mpr hm] at hef
          cases hef
        rw [hem, Set.union_empty]
        exact ih
      | some m =>
        have hsi : {m | h'.Low m} = {m} := by
          ext m'
          rw [Set.mem_ofPred_eq, ← effective_eq_some_iff, hef, some.injEq, Set.mem_singleton_iff, eq_comm]
        rw [hsi]
        cases hp : (h.run calls).lastEffective with
        | none =>
          simp only [hp] at ih
          rw [ih, Set.empty_union]
          exact isGreatest_singleton
        | some prev =>
          simp only [hp] at ih
          have := ih.union (isGreatest_singleton (a := m))
          rwa [max_comm] at this

/-- **Over any run the hub only goes forward, and commits the running maximum.** From an empty hub,
whatever is called: an input that is there stays, and its watermark, its largest event time and the
committed watermark do not go back; the committed one is the largest minimum over the active inputs
at any state so far where some input is active and all of those have a watermark; committing
never fails; an event that is negative or too far in the future changes nothing. -/
theorem hub_progress {h : WatermarkHub} (hinputs : h.inputs = .empty)
    (hlast : h.lastEffective = none) (pre post : List Call) :
    (∀ id s, (h.run pre).inputs.get? id = some s →
      ∃ s', (h.run (pre ++ post)).inputs.get? id = some s' ∧ Upward s.wm s'.wm ∧
        Upward s.maxEventTime s'.maxEventTime) ∧
      Upward (h.run pre).lastEffective (h.run (pre ++ post)).lastEffective ∧
      (∀ inputs, ∃ w, (commitProgress { h.run pre with inputs }).1 = .ok w) ∧
      (∀ m, (h.run pre).lastEffective = some m ↔ IsGreatest (h.lows pre) m) ∧
      ∀ id eventTime nowMicros, eventTime < 0 ∨
          (∃ bind ∈ (h.run pre).binding, ∃ skew ∈ bind.maxFutureSkewMicros, satAddI nowMicros skew < eventTime) →
        ((h.run pre).observeEvent id eventTime nowMicros).2 = h.run pre := by
  have hg := lastEffective_isGreatest hinputs hlast
  have hi : ∀ calls m, (h.run calls).lastEffective = some m ↔ IsGreatest (h.lows calls) m := by
    intro calls m
    have := hg calls
    cases heq : (h.run calls).lastEffective with
    | none =>
      rw [heq] at this
      have he : h.lows calls = ∅ := this
      exact ⟨nofun, fun hm => absurd hm.1 (he ▸ Set.notMem_empty m)⟩
    | some m' =>
      rw [heq] at this
      exact ⟨fun hm => some.inj hm ▸ this, fun hm => congrArg some (this.unique hm)⟩
  refine ⟨fun id s hs => ?_, fun w hw => ?_, fun inputs => ⟨_, congrArg Prod.fst (commitProgress_eq _)⟩, hi pre, ?_⟩
  · rw [run_append]
    obtain ⟨s', hs', hgr⟩ := run_grows (h.run pre) post hs
    exact ⟨s', hs', hgr.wm, hgr.maxEventTime⟩
  · -- the minima of the longer run are more
    have hme : w ∈ h.lows (pre ++ post) := by
      obtain ⟨pre', hp, hlo⟩ := ((hi pre w).mp hw).1
      exact ⟨pre', hp.trans (prefix_append _ _), hlo⟩
    cases heq : (h.run (pre ++ post)).lastEffective with
    | none =>
      have := hg (pre ++ post)
      rw [heq] at this
      rw [this] at hme
      cases hme
    | some w' => exact ⟨w', rfl, ((hi _ w').mp heq).2 hme⟩
  · rintro id eventTime nowMicros (hn | ⟨bind, hb, skew, hsk, hl⟩)
    · rw [observeEvent, if_pos hn]
    · rw [observeEvent, Option.mem_def.mp hb]
      split_ifs with hn
      · rfl
      · simp [Option.mem_def.mp hsk, hl]

/-- An input that goes idle and comes back with a lower watermark than the one committed meanwhile. -/
theorem hub_progress_back :
    let h := WatermarkHub.new.run [.setWatermark 0 5, .register 1, .setWatermark 1 9, .markIdle 0, .markActive 0]
    h.effective = some 5 ∧ h.lastEffective = some 9 ∧
      IsGreatest (WatermarkHub.new.lows [.setWatermark 0 5, .register 1, .setWatermark 1 9,
        .markIdle 0, .markActive 0]) 9 := by
  have hl : (WatermarkHub.new.run
      [.setWatermark 0 5, .register 1, .setWatermark 1 9, .markIdle 0, .markActive 0]).lastEffective = some 9 := by
    decide
  obtain ⟨-, -, -, hi, -⟩ := hub_progress (h := WatermarkHub.new) rfl rfl
    [.setWatermark 0 5, .register 1, .setWatermark 1 9, .markIdle 0, .markActive 0] []
  exact ⟨by decide, hl, (hi 9).mp hl⟩

end WatermarkHub

end Sparrow.Runtime
