import Sparrow.Library.SortedMap
import Sparrow.Model.Window

/-!
# Per-input watermarks

`sparrow-runtime/src/watermark.rs`, `WatermarkHub`: the combined watermark is the
minimum over the active, initialized inputs. An active input without a watermark
blocks it, an idle input is left out, and with all inputs idle there is none.

## The model

A call that mutates the hub returns its result with the hub it leaves; an error
keeps what was changed before it. `commit` is the shape that every mutating call
has once its input is registered: change the inputs, then commit the progress.
-/

namespace Sparrow.Runtime

open Library Model Option List

structure InputState where
  activity : InputActivity
  wm : Option ℤ
  maxEventTime : Option ℤ
  deriving DecidableEq

def InputState.new : InputState := { activity := .active, wm := none, maxEventTime := none }

/-- Raise the watermark of one input; a lower value is ignored. -/
def InputState.raise (wm : ℤ) (s : InputState) : InputState :=
  match s.wm with
  | some prev => if wm < prev then s else { s with wm := some wm }
  | none => { s with wm := some wm }

theorem InputState.activity_raise (s : InputState) (wm : ℤ) : (s.raise wm).activity = s.activity := by
  unfold InputState.raise
  cases s.wm with
  | none => rfl
  | some prev => dsimp only; split_ifs <;> rfl

theorem InputState.isSome_wm_raise (s : InputState) (wm : ℤ) : (s.raise wm).wm.isSome := by
  unfold InputState.raise
  cases hwm : s.wm with
  | none => rfl
  | some prev =>
    dsimp only
    split_ifs
    · rw [hwm]
      rfl
    · rfl

def InputState.nextMax (s : InputState) (eventTime : ℤ) : ℤ :=
  (s.maxEventTime.map fun m => max m eventTime).getD eventTime

/-- An observed event makes the input active and raises its largest event time. -/
def InputState.observe (eventTime : ℤ) (s : InputState) : InputState :=
  { s with activity := .active, maxEventTime := some (s.nextMax eventTime) }

structure WatermarkHub where
  inputs : SortedMap InputId InputState
  lastEffective : Option ℤ
  maxInputs : ℕ
  binding : Option EventTimeBinding
  deriving DecidableEq

namespace WatermarkHub

/-- `with_capacity`. -/
def withCapacity (maxInputs : ℕ) : WatermarkHub :=
  { inputs := .empty, lastEffective := none, maxInputs := max maxInputs 1, binding := none }

/-- `new`. -/
def new : WatermarkHub := withCapacity defaultMaxWatermarkInputs

/-- `with_binding`. -/
def withBinding (h : WatermarkHub) (binding : EventTimeBinding) : Result WatermarkHub := do
  binding.validate
  return { h with binding := some binding }

/-- The hub an operator starts with. -/
def ofBinding : Option EventTimeBinding → Result WatermarkHub
  | some binding => new.withBinding binding
  | none => .ok new

theorem ofBinding_ok {binding : Option EventTimeBinding} {hub : WatermarkHub} (h : ofBinding binding = .ok hub) :
    hub = { new with binding } := by
  cases binding with
  | none => exact (Except.ok.inj h).symm
  | some _ =>
    replace h := after_check h
    exact (Except.ok.inj h).symm

/-- Register an input, within the bound; one already there is left as it is. -/
def register (h : WatermarkHub) (id : InputId) : Result Unit × WatermarkHub :=
  if (h.inputs.get? id).isSome then (.ok (), h)
  else if h.inputs.size % 2 ^ 16 ≥ h.maxInputs then
    let bound := h.maxInputs
    let got := h.inputs.size + 1
    (.error (.new .boundExceeded s!"watermark inputs exceed max {bound} (got {got})"), h)
  else (.ok (), { h with inputs := h.inputs.insert id .new })

def allIdle (h : WatermarkHub) : Bool := h.inputs.size ≠ 0 ∧ h.inputs.entries.all fun e => e.2.activity = .idle

def anyActiveUninitialized (h : WatermarkHub) : Bool :=
  h.inputs.entries.any fun e => e.2.activity = .active ∧ e.2.wm = none

/-- The smallest watermark of the active inputs, `least` being that of the ones before;
`none` as soon as an active one has none. -/
def minActive (least : Option ℤ) : List (InputId × InputState) → Option ℤ
  | [] => least
  | (_, s) :: rest =>
    if s.activity ≠ .active then minActive least rest
    else match s.wm with
      | none => none
      | some wm => minActive (some ((least.map fun m => min m wm).getD wm)) rest

/-- Effective watermark for progress. `none` if blocked or all idle. -/
def effective (h : WatermarkHub) : Option ℤ :=
  if h.inputs.size = 0 then none
  else if h.allIdle then none
  else if h.anyActiveUninitialized then none
  else minActive none h.inputs.entries

/-- Monotonic progress watermark. `none` means "do not advance". -/
def progress (h : WatermarkHub) : Option ℤ :=
  match h.effective with
  | none => none
  | some eff =>
    match h.lastEffective with
    | some prev => if eff < prev then some prev else some eff
    | none => some eff

def commitProgress (h : WatermarkHub) : Result (Option ℤ) × WatermarkHub :=
  match h.progress with
  | none => (.ok none, h)
  | some next =>
    match h.lastEffective with
    | some prev =>
      if next < prev then
        (.error (.new .internal s!"watermark went backward: {prev} -> {next}"), h)
      else if next = prev then (.ok (some prev), h)
      else (.ok (some next), { h with lastEffective := some next })
    | none => (.ok (some next), { h with lastEffective := some next })

def commit (h : WatermarkHub) (id : InputId) (f : InputState → InputState) : Result (Option ℤ) × WatermarkHub :=
  match h.register id with
  | (.error e, h) => (.error e, h)
  | (.ok (), h) => commitProgress { h with inputs := h.inputs.modify id f }

/-- `mark_idle`. -/
def markIdle (h : WatermarkHub) (id : InputId) : Result (Option ℤ) × WatermarkHub :=
  h.commit id fun s => { s with activity := .idle }

/-- `mark_active`. -/
def markActive (h : WatermarkHub) (id : InputId) : Result (Option ℤ) × WatermarkHub :=
  h.commit id fun s => { s with activity := .active }

/-- Explicit punctuation. Never moves a per-input watermark backward. -/
def setWatermark (h : WatermarkHub) (id : InputId) (wm : ℤ) : Result (Option ℤ) × WatermarkHub :=
  if wm < 0 then (.error (.new .invalidArgument "watermark must be >= 0"), h)
  else h.commit id (InputState.raise wm)

/-- Observe an event timestamp, generating `wm = max_et - out_of_orderness`. A timestamp
beyond the future skew returns `Ok(None)` and changes nothing. -/
def observeEvent (h : WatermarkHub) (id : InputId) (eventTime nowMicros : ℤ) : Result (Option ℤ) × WatermarkHub :=
  if eventTime < 0 then
    (.error (.new .invalidArgument s!"event_time {eventTime} must be >= 0"), h)
  else match h.binding with
    | some bind =>
      if bind.maxFutureSkewMicros.any fun skew => eventTime > satAddI nowMicros skew then
        (.ok none, h)
      else match h.register id with
        | (.error e, h) => (.error e, h)
        | (.ok (), h) =>
          let proposed := ((h.inputs.get? id).map fun s =>
            max (satSubI (s.nextMax eventTime) bind.outOfOrdernessMicros) 0).getD 0
          let h := { h with inputs := h.inputs.modify id (InputState.observe eventTime) }
          h.setWatermark id proposed
    | none =>
      match h.register id with
      | (.error e, h) => (.error e, h)
      | (.ok (), h) =>
        let h := { h with inputs := h.inputs.modify id (InputState.observe eventTime) }
        h.setWatermark id eventTime

/-! ### Committing -/

theorem lastEffective_le_progress {h : WatermarkHub} {w prev : ℤ} (hw : h.progress = some w)
    (hp : h.lastEffective = some prev) : prev ≤ w := by
  unfold progress at hw
  cases he : h.effective with
  | none => simp [he] at hw
  | some eff =>
    simp only [he, hp] at hw
    split_ifs at hw with hlt <;> simp only [some.injEq] at hw <;> omega

/-- **Committing never fails**: it records the progress, if there is any. -/
theorem commitProgress_eq (h : WatermarkHub) :
    h.commitProgress = (.ok h.progress, { h with lastEffective := h.progress.or h.lastEffective }) := by
  unfold commitProgress
  cases hw : h.progress with
  | none => simp
  | some next =>
    cases hp : h.lastEffective with
    | none => simp
    | some prev =>
      have hle := lastEffective_le_progress hw hp
      obtain rfl | heq := eq_or_ne next prev
      · simp [← hp]
      · simp [heq, not_lt.mpr hle]

/-- Whenever there is progress, it is the committed one. -/
def Committed (h : WatermarkHub) : Prop := ∀ w, h.progress = some w → h.lastEffective = some w

theorem progress_commitProgress (h : WatermarkHub) : h.commitProgress.2.progress = h.progress := by
  rw [commitProgress_eq]
  cases hw : h.progress with
  | none => simp only [none_or]; exact hw
  | some w =>
    cases he : h.effective with
    | none => simp [progress, he] at hw
    | some eff =>
      have hle : eff ≤ w := by
        unfold progress at hw
        cases hp : h.lastEffective with
        | none => simp only [he, hp, some.injEq] at hw; omega
        | some prev =>
          simp only [he, hp] at hw
          split_ifs at hw <;> simp only [some.injEq] at hw <;> omega
      have he' : WatermarkHub.effective { h with lastEffective := some w } = some eff := he
      simp only [some_or, progress, he']
      split_ifs with hlt
      · rfl
      · rw [le_antisymm hle (not_lt.mp hlt)]

/-! ### What a call can do -/

/-- One call on the hub: nothing, or a change of the inputs followed by a commit. -/
inductive Step (h : WatermarkHub) : WatermarkHub → Prop where
  | same : Step h h
  /-- The inputs became `inputs`, and the progress was committed. -/
  | commit (inputs : SortedMap InputId InputState) : Step h (commitProgress { h with inputs }).2

section

variable (h : WatermarkHub) (id : InputId)

include h id

theorem register_cases :
    (∃ inputs, h.register id = (.ok (), { h with inputs }) ∧ (inputs.get? id).isSome ∧
        ∀ e ∈ inputs.entries, e ∈ h.inputs.entries ∨ e = (id, .new)) ∨
      ∃ e, h.register id = (.error e, h) := by
  unfold register
  split_ifs with hr hf
  · exact .inl ⟨h.inputs, rfl, hr, fun e he => .inl he⟩
  · exact .inr ⟨_, rfl⟩
  · exact .inl ⟨_, rfl, by simp, fun e he => (SortedMap.mem_insertEntry he).symm⟩

theorem step_commit (f : InputState → InputState) : Step h (h.commit id f).2 := by
  unfold commit
  rcases register_cases h id with ⟨inputs, hr, -, -⟩ | ⟨e, hr⟩
  · rw [hr]
    exact .commit _
  · rw [hr]
    exact .same

theorem step_markIdle : Step h (h.markIdle id).2 := step_commit ..

theorem step_markActive : Step h (h.markActive id).2 := step_commit ..

theorem step_setWatermark (wm : ℤ) : Step h (h.setWatermark id wm).2 := by
  unfold setWatermark
  split_ifs
  · exact .same
  · exact step_commit ..

end

variable {id : InputId}

theorem setWatermark_registered {h : WatermarkHub} {wm : ℤ} (hwm : 0 ≤ wm)
    (hr : (h.inputs.get? id).isSome) :
    h.setWatermark id wm = commitProgress { h with inputs := h.inputs.modify id (.raise wm) } := by
  simp [setWatermark, not_lt.mpr hwm, commit, register, hr]

theorem isSome_get?_modify {inputs : SortedMap InputId InputState}
    (f : InputState → InputState) (hr : (inputs.get? id).isSome) :
    ((inputs.modify id f).get? id).isSome := by
  simpa [SortedMap.get?_modify] using hr

/-- Observing an event refuses, or registers the input, observes the event and raises the
watermark, in one commit. -/
theorem observeEvent_cases (h : WatermarkHub) (id : InputId) (eventTime nowMicros : ℤ) :
    (h.observeEvent id eventTime nowMicros).2 = h ∨
      ∃ wm, h.observeEvent id eventTime nowMicros = h.commit id fun s => (s.observe eventTime).raise wm := by
  -- once the input is registered, setting its watermark is the same commit
  have hse : ∀ inputs wm, 0 ≤ wm → (inputs.get? id).isSome → h.register id = (.ok (), { h with inputs }) →
      setWatermark { h with inputs := inputs.modify id (.observe eventTime) } id wm =
        h.commit id fun s => (s.observe eventTime).raise wm := by
    intro inputs wm hwm hin hr
    rw [setWatermark_registered hwm (isSome_get?_modify _ hin), SortedMap.modify_modify, commit, hr]
  unfold observeEvent
  split_ifs with hn
  · exact .inl rfl
  · cases h.binding with
    | none =>
      rcases register_cases h id with ⟨inputs, hr, hin, -⟩ | ⟨e, hr⟩
      · simp only [hr]
        exact .inr ⟨eventTime, hse inputs eventTime (not_lt.mp hn) hin hr⟩
      · rw [hr]
        exact .inl rfl
    | some bind =>
      dsimp only
      split_ifs with hsk
      · exact .inl rfl
      · rcases register_cases h id with ⟨inputs, hr, hin, -⟩ | ⟨e, hr⟩
        · obtain ⟨s, hs⟩ := Option.isSome_iff_exists.mp hin
          simp only [hr]
          exact .inr ⟨_, hse inputs _ (by simp [hs]) hin hr⟩
        · rw [hr]
          exact .inl rfl

theorem step_observeEvent (h : WatermarkHub) (id : InputId) (eventTime nowMicros : ℤ) :
    Step h (h.observeEvent id eventTime nowMicros).2 := by
  rcases observeEvent_cases h id eventTime nowMicros with heq | ⟨wm, heq⟩
  · rw [heq]
    exact .same
  · rw [heq]
    exact step_commit ..

namespace Step

variable {h h' : WatermarkHub}

/-- **The progress seen from outside is the committed one**, after any call. -/
theorem committed (hs : Step h h') (hc : h.Committed) : h'.Committed := by
  cases hs with
  | same => exact hc
  | commit inputs =>
    intro w hw
    rw [progress_commitProgress] at hw
    rw [commitProgress_eq, hw]
    rfl

/-- **The committed watermark never goes back.** -/
theorem floor_le (hs : Step h h') {w : ℤ} (hw : h.lastEffective = some w) :
    ∃ w', h'.lastEffective = some w' ∧ w ≤ w' := by
  cases hs with
  | same => exact ⟨w, hw, le_rfl⟩
  | commit inputs =>
    rw [commitProgress_eq]
    cases hp : progress { h with inputs } with
    | none => exact ⟨w, hw, le_rfl⟩
    | some next => exact ⟨next, rfl, lastEffective_le_progress hp hw⟩

end Step

/-! ### Without idle inputs -/

/-- All inputs are active, and once there is a committed watermark, each of them has one. -/
structure Live (h : WatermarkHub) : Prop where
  nonempty : h.inputs.entries ≠ []
  active : ∀ e ∈ h.inputs.entries, e.2.activity = .active
  initialized : h.lastEffective.isSome → ∀ e ∈ h.inputs.entries, e.2.wm.isSome

theorem isSome_minActive {l : List (InputId × InputState)} (h : ∀ e ∈ l, e.2.wm.isSome) (m : ℤ) :
    (minActive (some m) l).isSome := by
  induction l generalizing m with
  | nil => rfl
  | cons e rest ih =>
    obtain ⟨w, hw⟩ := Option.isSome_iff_exists.mp (h e mem_cons_self)
    have hr := fun m => ih (fun e he => h e (mem_cons_of_mem _ he)) m
    simp only [minActive, hw]
    split_ifs
    · exact hr m
    · exact hr _

theorem isSome_progress {h : WatermarkHub} (hne : h.inputs.entries ≠ [])
    (ha : ∀ e ∈ h.inputs.entries, e.2.activity = .active)
    (hwm : ∀ e ∈ h.inputs.entries, e.2.wm.isSome) : h.progress.isSome := by
  have hi : h.allIdle = false := by
    obtain ⟨e, rest, he⟩ := exists_cons_of_ne_nil hne
    have := ha e (by simp [he])
    simp [allIdle, he, this]
  have hu : h.anyActiveUninitialized = false := by
    simp only [anyActiveUninitialized, List.any_eq_false]
    intro e he
    obtain ⟨w, hw⟩ := Option.isSome_iff_exists.mp (hwm e he)
    simp [hw]
  have hef : h.effective.isSome := by
    obtain ⟨e, rest, he⟩ := exists_cons_of_ne_nil hne
    obtain ⟨w, hw⟩ := Option.isSome_iff_exists.mp (hwm e (by simp [he]))
    have hac := ha e (by simp [he])
    have hr := isSome_minActive (l := rest) (fun e' he' => hwm e' (by simp [he, he'])) w
    simpa [effective, hi, hu, he, SortedMap.size, minActive, hac, hw] using hr
  obtain ⟨eff, hef⟩ := Option.isSome_iff_exists.mp hef
  unfold progress
  rw [hef]
  cases h.lastEffective with
  | none => rfl
  | some prev => dsimp only; split_ifs <;> rfl

theorem isSome_wm_of_progress {h : WatermarkHub} (hp : h.progress.isSome) {e : InputId × InputState}
    (he : e ∈ h.inputs.entries) (ha : e.2.activity = .active) : e.2.wm.isSome := by
  have hu : h.anyActiveUninitialized = false := by
    by_contra hb
    have hb' : h.anyActiveUninitialized = true := by simpa using hb
    have : h.effective = none := by
      unfold effective
      split_ifs <;> rfl
    simp [progress, this] at hp
  simp only [anyActiveUninitialized, List.any_eq_false] at hu
  have := hu e he
  cases hw : e.2.wm with
  | some w => rfl
  | none => simp [ha, hw] at this

namespace Live

variable {h : WatermarkHub}

theorem progress_eq (hli : h.Live) (hc : h.Committed) : h.progress = h.lastEffective := by
  cases hl : h.lastEffective with
  | none =>
    cases hp : h.progress with
    | none => rfl
    | some w => simpa [hl] using hc w hp
  | some w =>
    have hp := isSome_progress hli.nonempty hli.active (hli.initialized (by simp [hl]))
    obtain ⟨w', hw'⟩ := Option.isSome_iff_exists.mp hp
    rw [hw', ← hl, hc w' hw']

theorem commit (hl : h.Live) (id : InputId) {f : InputState → InputState}
    (hf : ∀ s, s.activity = .active → (f s).activity = .active ∧ (f s).wm.isSome) :
    (h.commit id f).2.Live := by
  unfold WatermarkHub.commit
  rcases register_cases h id with ⟨inputs, hr, hin, hm⟩ | ⟨e, hr⟩
  swap
  · rw [hr]
    exact hl
  have hb : ∀ e ∈ inputs.entries, e.2.activity = .active := by
    intro e he
    rcases hm e he with hold | rfl
    · exact hl.active e hold
    · rfl
  have ha : ∀ e ∈ (inputs.modify id f).entries, e.2.activity = .active := by
    intro e he
    obtain ⟨e₀, he₀, rfl⟩ := List.mem_map.mp he
    split_ifs
    · exact (hf _ (hb e₀ he₀)).1
    · exact hb e₀ he₀
  have hne : (inputs.modify id f).entries ≠ [] := by
    obtain ⟨s, hs⟩ := Option.isSome_iff_exists.mp hin
    have := ne_nil_of_mem (SortedMap.mem_entries_iff.mpr hs)
    simpa [SortedMap.modify] using this
  rw [hr]
  simp only [commitProgress_eq]
  refine ⟨hne, ha, fun hso e he => ?_⟩
  cases hp : progress { h with inputs := inputs.modify id f } with
  | some w =>
    have hpr : (progress { h with inputs := inputs.modify id f }).isSome := by rw [hp]; rfl
    exact isSome_wm_of_progress hpr he (ha e he)
  | none =>
    -- the watermark was committed before, so all the old inputs have one, and `id` gets one
    simp only [hp, none_or] at hso
    obtain ⟨e₀, he₀, rfl⟩ := List.mem_map.mp he
    split_ifs with hid
    · exact (hf _ (hb e₀ he₀)).2
    · rcases hm e₀ he₀ with hold | rfl
      · exact hl.initialized hso e₀ hold
      · exact absurd rfl hid

theorem setWatermark (hl : h.Live) (id : InputId) (wm : ℤ) : (h.setWatermark id wm).2.Live := by
  unfold WatermarkHub.setWatermark
  split_ifs
  · exact hl
  · exact hl.commit id fun s hs => ⟨s.activity_raise wm ▸ hs, s.isSome_wm_raise wm⟩

theorem observeEvent (hl : h.Live) (id : InputId) (eventTime nowMicros : ℤ) :
    (h.observeEvent id eventTime nowMicros).2.Live := by
  rcases observeEvent_cases h id eventTime nowMicros with heq | ⟨wm, heq⟩
  · rw [heq]
    exact hl
  · rw [heq]
    exact hl.commit id fun s _ =>
      ⟨(s.observe eventTime).activity_raise wm ▸ rfl, (s.observe eventTime).isSome_wm_raise wm⟩

end Live

end WatermarkHub

/-! ### Output holdback -/

/-- Output watermark with holdback: finals are emitted at `wmOut`, then it advances. -/
structure OutputHoldback where
  latenessMicros : Int64
  wmIn : Option ℤ
  wmOut : Option ℤ
  deriving DecidableEq

namespace OutputHoldback

/-- `OutputHoldback::new`. -/
def new (latenessMicros : Int64) : Result OutputHoldback :=
  if (latenessMicros : ℤ) < 0 then .error (.new .invalidArgument "holdback L must be >= 0")
  else .ok { latenessMicros, wmIn := none, wmOut := none }

variable (h : OutputHoldback)

/-- Apply an input watermark; the watermark to which finals should now be emitted. A
watermark below the last one changes nothing. -/
def onWmIn (wmIn : ℤ) : Result (Option ℤ) × OutputHoldback :=
  if h.wmIn.any fun prev => wmIn < prev then (.ok h.wmOut, h)
  else
    let h := { h with wmIn := some wmIn }
    (match holdbackWmOut wmIn h.latenessMicros with
    | .error e => .error e
    | .ok proposed =>
      match h.wmOut with
      | some out => if proposed < out then .ok (some out) else .ok (some proposed)
      | none => .ok (some proposed), h)

/-- `wm_out` is above what the input watermark allows. -/
def overCap (wmOut : ℤ) : Result Unit :=
  match h.wmIn with
  | none => .ok ()
  | some inp =>
    match holdbackWmOut inp h.latenessMicros with
    | .error e => .error e
    | .ok cap =>
      let lateness := h.latenessMicros.toInt
      if wmOut > cap then
        .error (.new .invalidArgument s!"wm_out {wmOut} > wm_in {inp} - L {lateness} (cap {cap})")
      else .ok ()

/-- Advance the output watermark after finals have been emitted. -/
def advanceOut (wmOut : ℤ) : Result OutputHoldback := do
  h.overCap wmOut
  refuseIf (h.wmOut.any fun prev => wmOut < prev)
    (.new .invalidArgument "output watermark must not go backward")
  return { h with wmOut := some wmOut }

def cap (wmIn : ℤ) : ℤ := max (satSubI wmIn h.latenessMicros) 0

/-- `p` is an output watermark the input watermark allows, not below the present one. -/
def Within (p : ℤ) : Prop := (∃ i, h.wmIn = some i ∧ p ≤ h.cap i) ∧ ∀ o, h.wmOut = some o → o ≤ p

/-- The output watermark is one the input watermark allows. -/
def Capped : Prop := ∀ o, h.wmOut = some o → h.Within o

variable {h : OutputHoldback}

theorem holdbackWmOut_ok (hL : 0 ≤ (h.latenessMicros : ℤ)) (wmIn : ℤ) :
    holdbackWmOut wmIn h.latenessMicros = .ok (h.cap wmIn) := by
  simp [holdbackWmOut, cap, not_lt.mpr hL]

theorem cap_mono (h : OutputHoldback) {i j : ℤ} (hij : i ≤ j) : h.cap i ≤ h.cap j := by
  unfold cap satSubI clampI64
  omega

variable {h' : OutputHoldback}

/-- **Applying an input watermark** keeps the output watermark, and proposes one that is
allowed; what was allowed before still is. -/
theorem onWmIn_ok {wm : ℤ} {p : Option ℤ} (hL : 0 ≤ (h.latenessMicros : ℤ))
    (hc : h.Capped) (hon : h.onWmIn wm = (.ok p, h')) :
    h'.latenessMicros = h.latenessMicros ∧ h'.wmOut = h.wmOut ∧ h'.Capped ∧
      (∀ q, p = some q → h'.Within q) ∧ ∀ q, h.Within q → h'.Within q := by
  unfold onWmIn at hon
  split_ifs at hon with hl
  · obtain ⟨rfl, rfl⟩ : h.wmOut = p ∧ h = h' := by simpa using hon
    exact ⟨rfl, rfl, hc, fun q hq => hc q hq, fun q hq => hq⟩
  · -- the input watermark does not go back
    have hup : ∀ i, h.wmIn = some i → i ≤ wm := by
      intro i hi
      simpa [hi] using hl
    dsimp only at hon
    rw [holdbackWmOut_ok hL] at hon
    simp only [Prod.mk.injEq] at hon
    obtain ⟨hp, rfl⟩ := hon
    have hw : ∀ q, h.Within q → Within { h with wmIn := some wm } q := by
      rintro q ⟨⟨i, hi, hq⟩, hou⟩
      exact ⟨⟨wm, rfl, hq.trans (h.cap_mono (hup i hi))⟩, hou⟩
    refine ⟨rfl, rfl, fun o ho => hw o (hc o ho), fun q hq => ?_, hw⟩
    cases hou : h.wmOut with
    | none =>
      simp only [hou, Except.ok.injEq] at hp
      obtain rfl : h.cap wm = q := by simpa [hq] using hp
      exact ⟨⟨wm, rfl, le_rfl⟩, by simp⟩
    | some o =>
      simp only [hou] at hp
      split_ifs at hp with hlt
      · obtain rfl : o = q := by simpa [hq] using hp
        exact hou ▸ hw o (hc o hou)
      · obtain rfl : h.cap wm = q := by simpa [hq] using hp
        refine ⟨⟨wm, rfl, le_rfl⟩, fun o' ho' => ?_⟩
        obtain rfl : o = o' := by simpa [hou] using ho'
        exact not_lt.mp hlt

theorem advanceOut_eq_ok {p : ℤ} (ha : h.advanceOut p = .ok h') : h' = { h with wmOut := some p } := by
  replace ha := after_check (after_check ha)
  exact (Except.ok.inj ha).symm

theorem Within.advanced {p : ℤ} (hp : h.Within p) : Capped { h with wmOut := some p } := by
  obtain ⟨⟨i, hi, hle⟩, -⟩ := hp
  intro o ho
  obtain rfl : p = o := by simpa using ho
  refine ⟨⟨i, hi, hle⟩, fun o ho => ?_⟩
  obtain rfl : p = o := by simpa using ho
  exact le_rfl

end OutputHoldback

end Sparrow.Runtime
