import Sparrow.Runtime.BufferedSession

/-!
# Finality of event-time buffered windows

An event-time sliding or session window emits final rows when its watermark passes
their end. A row emitted is never taken back, so an event below a watermark that
has already been reported must not enter the state any more.

`push` tests the event against `progress()`, the watermark the hub would report at
that moment. The hub reports none while all inputs are idle or while an active
input has no watermark, whatever it reported before.
-/

namespace Sparrow.Runtime

open Library Model Plan BufferedWindow Machine Sessions List WatermarkHub Runtime.Group

variable {row : Row} {now : ℤ} {grants : Grants} {spec : WindowSpec} {external : Bool}

namespace BufferedWindow

/-! ### Runs -/

/-- A call on a buffered window. -/
inductive Call where
  | push (grants : Grants) (row : Row) (now : ℤ)
  | watermark (input : InputId) (time : ℤ)
  | activity (input : InputId) (active : Bool)
  | takeDue (grants : Grants) (time : ℤ)

def pushedRows : Result Ingest → List RowBatch
  | .ok (.accepted (some b)) => [b]
  | _ => []

def isAccepted : Result Ingest → Bool
  | .ok (.accepted _) => true
  | _ => false

def drainedRows : Result (Option RowBatch) → List RowBatch
  | .ok (some b) => [b]
  | _ => []

/-- One call: the rows it emits, and the operator it leaves, whether or not it fails. -/
def step (w : BufferedWindow) : Call → List RowBatch × BufferedWindow
  | .push grants row now => (pushedRows (w.push grants row now).1, (w.push grants row now).2)
  | .watermark input time => ([], (w.watermark input time).2)
  | .activity input active => ([], (w.activity input active).2)
  | .takeDue grants time => (drainedRows (w.takeDue grants time).1, (w.takeDue grants time).2)

def after (w : BufferedWindow) (calls : List Call) : BufferedWindow := (run step w calls).2

def emitted (w : BufferedWindow) (calls : List Call) : List RowBatch := (run step w calls).1

/-! ### One call of an event-time window -/

variable {w : BufferedWindow}

/-- An event-time push changes nothing but the clock, or puts the event of a timestamp
that is not late into its group. -/
theorem push_et (het : w.isEt = true) (grants : Grants) (row : Row) (now : ℤ) :
    (∃ r n, w.push grants row now = (r, { w with lastNow := n }) ∧ ∀ out, r ≠ .ok (.accepted out)) ∨
      ∃ r t n timestamp adm hub, w.push grants row now =
          (r, { retained { w with lastNow := n } adm timestamp with hub }) ∧
        w.now now = (.ok t, { w with lastNow := n }) ∧
        w.timestamp row t = .ok timestamp ∧ w.isLate timestamp = false ∧
        w.Admits row timestamp adm ∧ Step w.hub hub ∧ pushedRows r = [] := by
  rcases w.push_cases grants row now with ⟨r, n, hp, -, hr⟩ |
      ⟨t, n, timestamp, adm, hn, -, -, hts, -, hl, ha, hp⟩
  · exact .inl ⟨r, n, hp, hr⟩
  · rw [retain_of_no_immediate (w := { w with lastNow := n }) (immediate_of_et het _ _)] at hp
    obtain ⟨r, hub, ho, hs, -, hr⟩ :=
      observe_cases (retained { w with lastNow := n } adm timestamp) timestamp t none
    have hh : (retained { w with lastNow := n } adm timestamp).hub = w.hub := by
      obtain ⟨_, _, _, _, h⟩ := retained_frame { w with lastNow := n } adm timestamp
      rw [h]
    refine .inr ⟨r, t, n, timestamp, adm, hub, hp.trans ho, hn, hts, hl, admission_eq_ok ha,
      hh ▸ hs, ?_⟩
    rcases hr with rfl | ⟨e, rfl⟩ <;> rfl

/-- Any call of an event-time window keeps its configuration and its well-formedness,
and is one call of its hub. -/
theorem step_et (hw : w.Wf) (het : w.isEt = true) (c : Call) :
    (w.step c).2.toBufferedConfig = w.toBufferedConfig ∧ (w.step c).2.Wf ∧
      Step w.hub (w.step c).2.hub := by
  cases c with
  | push grants row now =>
    simp only [step]
    rcases push_et het grants row now with ⟨r, n, hp, -⟩ |
        ⟨r, t, n, timestamp, adm, hub, hp, -, -, -, ha, hst, -⟩
    · rw [hp]
      exact ⟨rfl, hw.congr rfl rfl rfl, .same⟩
    · have hw' : Wf { w with lastNow := n } := hw.congr rfl rfl rfl
      have hs := retained_spec hw' (ha.clocked n)
      obtain ⟨_, _, _, _, hf⟩ := retained_frame { w with lastNow := n } adm timestamp
      rw [hp]
      refine ⟨?_, hs.1.congr rfl rfl rfl, hst⟩
      simp only [hf]
  | watermark input time =>
    exact ⟨rfl, hw.congr rfl rfl rfl, w.hub.step_setWatermark input time⟩
  | activity input active =>
    refine ⟨rfl, hw.congr rfl rfl rfl, ?_⟩
    cases active
    · exact w.hub.step_markIdle input
    · exact w.hub.step_markActive input
  | takeDue grants time =>
    simp only [step]
    rcases takeDue_cases hw grants time with ⟨r, n, ht, -, -⟩ |
        ⟨t, n, deadline, key, g, -, -, -, hg, hd, ht⟩
    · rw [ht]
      exact ⟨rfl, hw.congr rfl rfl rfl, .same⟩
    · have hw' : Wf { w with lastNow := n } := hw.congr rfl rfl rfl
      have key_step : ∀ consumed, (settle { w with lastNow := n } key g deadline t consumed).Wf ∧
          (settle { w with lastNow := n } key g deadline t consumed).toBufferedConfig = w.toBufferedConfig ∧
          Step w.hub (settle { w with lastNow := n } key g deadline t consumed).hub := by
        intro consumed
        obtain ⟨_, _, _, hf⟩ := settle_frame { w with lastNow := n } key g deadline t consumed
        refine ⟨(settle_spec hw' hg hd t consumed).1, ?_, ?_⟩
        · rw [hf]
        · rw [hf]
          exact .same
      rcases ht with ⟨-, ht⟩ | ⟨_, _, consumed, _, -, -, ht⟩
      · rw [ht]
        exact ⟨(key_step none).2.1, (key_step none).1, (key_step none).2.2⟩
      · rw [ht]
        exact ⟨(key_step _).2.1, (key_step _).1, (key_step _).2.2⟩

/-! ### Late events -/

/-- What every run of an event-time window keeps: the operator is well formed, and the
watermark it reports is the committed one. -/
structure EtInv (w : BufferedWindow) : Prop where
  wf : w.Wf
  et : w.isEt = true
  column : w.eventTime.isSome
  committed : w.hub.Committed

section

variable {w : BufferedWindow} (hw : w.EtInv)

include hw

theorem EtInv.step (c : Call) : (w.step c).2.EtInv := by
  obtain ⟨hc, hwf, hh⟩ := step_et hw.wf hw.et c
  refine ⟨hwf, ?_, by rw [hc]; exact hw.column, hh.committed hw.committed⟩
  unfold isEt
  rw [hc]
  exact hw.et

theorem EtInv.after (calls : List Call) : (w.after calls).EtInv := run_invariant (fun _ c h => h.step c) hw calls

theorem floor_after {W : ℤ} (hW : w.hub.lastEffective = some W)
    (calls : List Call) : ∃ W', (w.after calls).hub.lastEffective = some W' ∧ W ≤ W' := by
  refine (run_invariant (P := fun w' : BufferedWindow => w'.EtInv ∧
    ∃ W', w'.hub.lastEffective = some W' ∧ W ≤ W') ?_ ⟨hw, W, hW, le_rfl⟩ calls).2
  rintro w' c ⟨hw', W', hW', hle⟩
  obtain ⟨W'', hW'', hl'⟩ := (step_et hw'.wf hw'.et c).2.2.floor_le hW'
  exact ⟨hw'.step c, W'', hW'', hle.trans hl'⟩

theorem EtInv.lastEffective {W : ℤ} (hW : w.progress = some W) : w.hub.lastEffective = some W := by
  refine hw.committed W ?_
  rwa [progress, if_pos hw.et] at hW

end

theorem after_append (w : BufferedWindow) (as bs : List Call) : w.after (as ++ bs) = (w.after as).after bs := by
  simp [after, run_append]

/-- **The late test.** A readable event below the committed watermark is refused as late,
the groups untouched, exactly when the hub reports a watermark and the event is not
dropped as a future one. -/
theorem late_iff (hw : w.EtInv) {F : ℤ} (hF : w.hub.lastEffective = some F) (grants : Grants)
    {t : ℤ} (hwi : row.values.length = w.input.fields.length) (hn : 0 ≤ now)
    (ht : w.timestamp row (max w.lastNow now) = .ok t) (hlt : t < F) :
    ((w.push grants row now).1 = .ok .late ∧ (w.push grants row now).2.groups = w.groups) ↔
      w.progress.isSome ∧ w.isFuture t (max w.lastNow now) = false := by
  have hpu := push_eq grants hwi (now_eq (isCount_of_et hw.et) hn) ht
  cases hf : w.isFuture t (max w.lastNow now) with
  | true => simp [hpu, hf]
  | false =>
    cases hp : w.progress with
    | some W =>
      -- the reported watermark is the committed one, so the event is below it
      obtain rfl : F = W := Option.some.inj (hF.symm.trans (hw.lastEffective hp))
      have hl : w.isLate t = true := by simp [isLate, hw.et, hp, hlt]
      simp [hpu, hf, hl]
    | none =>
      have hl : w.isLate t = false := by simp [isLate, hp]
      simp only [hpu, hf, hl, Bool.false_eq_true, ↓reduceIte, Option.isSome_none, false_and, iff_false, not_and]
      intro hc
      cases ha : w.admission grants row t with
      | error e => simp [ha] at hc
      | ok adm =>
        rw [ha] at hc
        dsimp only at hc
        rw [retain_of_no_immediate (w := { w with lastNow := max w.lastNow now })
          (immediate_of_et hw.et _ _)] at hc
        obtain ⟨r, hub, ho, -, -, hr⟩ := observe_cases
          (retained { w with lastNow := max w.lastNow now } adm t) t (max w.lastNow now) none
        rw [ho] at hc
        rcases hr with rfl | ⟨e, rfl⟩ <;> simp at hc

/-! ### Sessions -/

/-- The bounds of the finals emitted for a key, in the order they were emitted. -/
def finalsFor (n : ℕ) (key : Bytes) (rows : List RowBatch) : List (ℤ × ℤ) :=
  (rows.flatMap (·.rows)).filterMap fun row =>
    match finalOf n row with
    | some (k, bounds) => if k = key then some bounds else none
    | none => none

theorem finalsFor_append (n : ℕ) (key : Bytes) (as bs : List RowBatch) :
    finalsFor n key (as ++ bs) = finalsFor n key as ++ finalsFor n key bs := by
  simp [finalsFor]

/-- A push of an event below the committed watermark finds a watermark reported, and a
drain step is at the watermark reported. -/
def Guarded (w : BufferedWindow) : Call → Prop
  | .push _ row now => ∀ t F, w.timestamp row (max w.lastNow now) = .ok t →
      w.hub.lastEffective = some F → t < F → w.progress.isSome
  | .takeDue _ time => w.progress = some time
  | _ => True

/-- What a guarded run of a session window keeps. -/
structure SessionInv (gap span : Int64) (seen : List RowBatch) (w : BufferedWindow) : Prop where
  et : w.EtInv
  kind : w.spec.kind = .sessionEventTime gap span
  range : ∀ k g, w.groups.get? k = some g → ∀ e ∈ g.events.entries,
    0 ≤ timeOf e ∧ timeOf e + max (gap : ℤ) span ≤ i64Max
  ordered : ∀ k, (finalsFor w.keys.length k seen).Pairwise fun a b => a.2 ≤ b.1
  proper : ∀ k, ∀ b ∈ finalsFor w.keys.length k seen, b.1 < b.2
  floor : ∀ k, ∀ b ∈ finalsFor w.keys.length k seen, ∃ F, w.hub.lastEffective = some F ∧ b.2 ≤ F
  kept : ∀ k, ∀ b ∈ finalsFor w.keys.length k seen, ∀ g, w.groups.get? k = some g →
    ∀ e ∈ g.events.entries, b.2 ≤ timeOf e

namespace SessionInv

variable {gap span : Int64} {seen : List RowBatch} {w : BufferedWindow} {w' : BufferedWindow}

/-- A call that emits nothing, and retains besides what was retained only events in range
and not below the committed watermark, keeps the invariant. -/
theorem gain (hw : SessionInv gap span seen w) (het : w'.EtInv)
    (hc : w'.toBufferedConfig = w.toBufferedConfig) (hh : Step w.hub w'.hub)
    (hev : ∀ k g, w'.groups.get? k = some g → ∀ e ∈ g.events.entries,
      (0 ≤ timeOf e ∧ timeOf e + max (gap : ℤ) span ≤ i64Max ∧ ∀ F, w.hub.lastEffective = some F → F ≤ timeOf e) ∨
      ∃ g', w.groups.get? k = some g' ∧ e ∈ g'.events.entries) : SessionInv gap span seen w' := by
  refine ⟨het, by rw [hc]; exact hw.kind, ?_, ?_, ?_, ?_, ?_⟩ <;> try simp only [hc]
  · intro k g hg e he
    rcases hev k g hg e he with ⟨h0, hm, -⟩ | ⟨g', hg', he'⟩
    · exact ⟨h0, hm⟩
    · exact hw.range k g' hg' e he'
  · exact hw.ordered
  · exact hw.proper
  · intro k b hb
    obtain ⟨F, hF, hle⟩ := hw.floor k b hb
    obtain ⟨F', hF', hl'⟩ := hh.floor_le hF
    exact ⟨F', hF', hle.trans hl'⟩
  · intro k b hb g hg e he
    rcases hev k g hg e he with ⟨-, -, hf⟩ | ⟨g', hg', he'⟩
    · obtain ⟨F, hF, hle⟩ := hw.floor k b hb
      exact hle.trans (hf F hF)
    · exact hw.kept k b hb g' hg' e he'

theorem floor_le_of_guarded (hw : w.EtInv) {t : ℤ} (hg : w.Guarded (.push grants row now))
    (ht : w.timestamp row (max w.lastNow now) = .ok t) (hl : w.isLate t = false) {F : ℤ}
    (hF : w.hub.lastEffective = some F) : F ≤ t := by
  by_contra hlt
  obtain ⟨W, hW⟩ := Option.isSome_iff_exists.mp (hg t F ht hF (not_le.mp hlt))
  obtain rfl : F = W := Option.some.inj (hF.symm.trans (hw.lastEffective hW))
  simp only [isLate, hw.et, hW, Option.any_some, Bool.true_and, decide_eq_false_iff_not] at hl
  exact hlt (not_lt.mp hl)

theorem mem_retained_et (hwf : w.Wf) (het : w.isEt = true) {timestamp n : ℤ} {adm : Admission}
    (ha : w.Admits row timestamp adm) {k : Bytes} {g : Group}
    (hg : (retained { w with lastNow := n } adm timestamp).groups.get? k = some g) {e : EventEntry}
    (he : e ∈ g.events.entries) :
    timeOf e = timestamp ∨ ∃ g', w.groups.get? k = some g' ∧ e ∈ g'.events.entries := by
  have hw' : Wf { w with lastNow := n } := hwf.congr rfl rfl rfl
  have hgr : w.retainedGroup row timestamp adm.event =
      (w.groupFor row).added timestamp ((w.groupFor row).sequence + 1) adm.event :=
    retainedGroup_eq (isCount_of_et het) (immediate_of_et het _ _)
  rw [(retained_spec hw' (ha.clocked n)).2, SortedMap.get?_insert] at hg
  split_ifs at hg with hk
  · have hen : e ∈ (w.retainedGroup row timestamp adm.event).events.entries := by
      cases hg
      exact he
    rw [hgr] at hen
    rcases SortedMap.mem_insertEntry hen with rfl | hm
    · exact .inl rfl
    · obtain ⟨g', hg', he'⟩ := mem_groupFor hm
      exact .inr ⟨g', hk ▸ hg', he'⟩
  · exact .inr ⟨g, hg, he⟩

/-- A guarded push keeps the invariant: what it retains is not below the committed
watermark, so it comes after everything emitted. -/
theorem push (hw : SessionInv gap span seen w) (hgu : w.Guarded (.push grants row now)) :
    SessionInv gap span (seen ++ (w.step (.push grants row now)).1)
      (w.step (.push grants row now)).2 := by
  obtain ⟨hc, -, hh⟩ := step_et hw.et.wf hw.et.et (.push grants row now)
  have het := hw.et.step (.push grants row now)
  rcases push_et hw.et.et grants row now with ⟨r, n, hp, hr⟩ |
      ⟨r, t, n, timestamp, adm, hub, hp, hn, hts, hl, ha, -, hro⟩
  · have hro : (w.step (.push grants row now)).1 = [] := by
      simp only [step, hp]
      cases r with
      | error e => rfl
      | ok i => cases i with
        | accepted out => exact absurd rfl (hr out)
        | late => rfl
        | future => rfl
    rw [hro, append_nil]
    refine hw.gain het hc hh fun k g hg e he => .inr ⟨g, ?_, he⟩
    simpa only [step, hp] using hg
  · obtain ⟨-, rfl⟩ := now_eq_ok (isCount_of_et hw.et.et) hn
    have hr' : (w.step (.push grants row now)).1 = [] := by simp only [step, hp, hro]
    rw [hr', append_nil]
    refine hw.gain het hc hh fun k g hg e he => ?_
    simp only [step, hp] at hg
    refine (mem_retained_et hw.et.wf hw.et.et ha hg he).imp (fun ht => ?_) id
    have hf := ha.fits
    simp only [endpointsFit, hw.kind, fitsI64_iff] at hf
    rw [ht]
    exact ⟨(timestamp_bounds hw.et.column hts).1, hf.2,
      fun F hF => floor_le_of_guarded hw.et hgu hts hl hF⟩

/-- Emitting a session that starts after everything emitted for its key, stops at or below
the committed watermark, and leaves only events after its stop, keeps the invariant. -/
theorem emit (hw : SessionInv gap span seen w) (het : w'.EtInv)
    (hcf : w'.toBufferedConfig = w.toBufferedConfig) (hh : w'.hub = w.hub) {out : RowBatch}
    {key : Bytes} {start stop : ℤ} (hlt : start < stop)
    (hf : ∀ k, finalsFor w.keys.length k [out] = if k = key then [(start, stop)] else [])
    (hfl : ∃ F, w.hub.lastEffective = some F ∧ stop ≤ F)
    (hs : ∃ g, w.groups.get? key = some g ∧ ∃ e ∈ g.events.entries, timeOf e = start)
    (hev : ∀ k g, w'.groups.get? k = some g → ∀ e ∈ g.events.entries,
      (k = key → stop ≤ timeOf e) ∧ ∃ g', w.groups.get? k = some g' ∧ e ∈ g'.events.entries) :
    SessionInv gap span (seen ++ [out]) w' := by
  -- a final of the longer history is one of before, or the new one
  have hc : ∀ k b, b ∈ finalsFor w.keys.length k (seen ++ [out]) →
      b ∈ finalsFor w.keys.length k seen ∨ (k = key ∧ b = (start, stop)) := by
    intro k b hb
    rw [finalsFor_append, hf, mem_append] at hb
    refine hb.imp id fun h => ?_
    split_ifs at h with hk
    · exact ⟨hk, List.mem_singleton.mp h⟩
    · simp at h
  obtain ⟨gk, hgk, ek, hek, ht⟩ := hs
  refine ⟨het, by rw [hcf]; exact hw.kind, ?_, ?_, ?_, ?_, ?_⟩ <;> try simp only [hcf, hh]
  · intro k g hg e he
    obtain ⟨-, g', hg', he'⟩ := hev k g hg e he
    exact hw.range k g' hg' e he'
  · intro k
    rw [finalsFor_append, hf, pairwise_append]
    refine ⟨hw.ordered k, ?_, ?_⟩
    · split_ifs <;> simp
    · intro a ha b hb
      split_ifs at hb with hk
      · subst hk
        rw [List.mem_singleton.mp hb, ← ht]
        exact hw.kept k a ha gk hgk ek hek
      · simp at hb
  · intro k b hb
    rcases hc k b hb with hb | ⟨-, rfl⟩
    · exact hw.proper k b hb
    · exact hlt
  · intro k b hb
    rcases hc k b hb with hb | ⟨-, rfl⟩
    · exact hw.floor k b hb
    · exact hfl
  · intro k b hb g hg e he
    obtain ⟨hn, g', hg', he'⟩ := hev k g hg e he
    rcases hc k b hb with hb | ⟨hk, rfl⟩
    · exact hw.kept k b hb g' hg' e he'
    · exact hn hk

theorem takeDue (hw : SessionInv gap span seen w) {time : ℤ} (hgu : w.Guarded (.takeDue grants time)) :
    SessionInv gap span (seen ++ (w.step (.takeDue grants time)).1)
      (w.step (.takeDue grants time)).2 := by
  obtain ⟨hc, -, hh⟩ := step_et hw.et.wf hw.et.et (.takeDue grants time)
  have het := hw.et.step (.takeDue grants time)
  obtain ⟨hga, hs⟩ := WindowSpec.valid_session hw.et.wf.valid (.inl hw.kind)
  have hpt : w.isPt = false := by simp [isPt, hw.kind, WindowKind.usesProcessingTimeTimer]
  rcases takeDue_cases hw.et.wf grants time with ⟨r, n, ht, -, hr⟩ |
      ⟨t, n, deadline, key, g, hcl, -, hdu, hg, hd, ht⟩
  · have hro : (w.step (.takeDue grants time)).1 = [] := by
      simp only [step, ht]
      rcases hr with ⟨e, rfl⟩ | ⟨rfl, -⟩ <;> rfl
    rw [hro, append_nil]
    refine hw.gain het hc hh fun k g hg e he => .inr ⟨g, ?_, he⟩
    simpa only [step, ht] using hg
  · obtain rfl : time = t := by
      simp only [hpt, Bool.false_eq_true, ↓reduceIte, Prod.mk.injEq, Except.ok.injEq] at hcl
      exact hcl.1
    obtain ⟨f, rest, hen⟩ := exists_cons_of_ne_nil (hw.et.wf.nonempty key g hg)
    have hse := session_eq hga hs hen
    -- the deadline is the stop of the first session, which is what is due
    obtain rfl : (first timeOf gap span f rest).2.1 = deadline := by
      have := hw.et.wf.deadline key g hg
      rw [hd, hw.kind] at this
      simpa [nextDeadline, hse] using this.symm
    have hat : g.dueAt time w.spec.kind = some (timeOf f, (first timeOf gap span f rest).2.1,
        toLex ((first timeOf gap span f rest).2.1, 0)) := by
      simp [hw.kind, dueAt, hse]
    rcases ht with ⟨hn, -⟩ | ⟨start, stop, consumed, out, hso, ha, ht⟩
    · simp [hat] at hn
    obtain ⟨rfl, rfl, rfl⟩ : timeOf f = start ∧ (first timeOf gap span f rest).2.1 = stop ∧
        toLex ((first timeOf gap span f rest).2.1, 0) = consumed := by
      simpa [hat] using hso
    obtain ⟨-, accs, -, -, rfl⟩ := aggregate_eq_ok ha
    obtain ⟨h0, hma⟩ := hw.range key g hg f (by rw [hen]; exact mem_cons_self)
    have hlt := session_stop_gt hga hs hen
    have hle := session_stop_le gap span f rest
    have hset := settle_spec (w := { w with lastNow := n }) (hw.et.wf.congr rfl rfl rfl) hg hd time
      (some (toLex ((first timeOf gap span f rest).2.1, 0)))
    have hki : w.spec.kind.IsSession gap span := .inl hw.kind
    have hl := settled_session hga hs hen hki time 0
    have hf : finalOf w.keys.length (resultRow g.key.values (timeOf f)
        (first timeOf gap span f rest).2.1 accs) = some (key, timeOf f, (first timeOf gap span f rest).2.1) := by
      rw [← hw.et.wf.encoded key g hg]
      refine finalOf_resultRow accs (hw.et.wf.width key g hg) ?_ ?_ <;>
        (rw [fitsI64_iff]; unfold i64Min; omega)
    simp only [step, ht, drainedRows] at het hc hh ⊢
    refine hw.emit het hc ?_ hlt (fun k => ?_) ⟨time, hw.et.lastEffective hgu, hdu⟩
      ⟨g, hg, f, by rw [hen]; exact mem_cons_self, rfl⟩ fun k g' hg' e he => ?_
    · obtain ⟨_, _, _, hfr⟩ := settle_frame { w with lastNow := n } key g
        (first timeOf gap span f rest).2.1 time
        (some (toLex ((first timeOf gap span f rest).2.1, 0)))
      rw [hfr]
    · simp only [finalsFor, flatMap_cons, flatMap_nil, append_nil,
        filterMap_cons, filterMap_nil, hf]
      by_cases hk : k = key
      · simp [hk]
      · simp [hk, Ne.symm hk]
    · rw [hset.2] at hg'
      split_ifs at hg' with hem
      · rw [SortedMap.get?_erase] at hg'
        split_ifs at hg' with hk
        exact ⟨fun h => absurd h hk, g', hg', he⟩
      · obtain ⟨hk, rfl⟩ | ⟨hk, hg'⟩ := SortedMap.get?_insert_eq_some.mp hg'
        · obtain ⟨hm, hst⟩ := stop_le_of_mem_left hen (hl ▸ he)
          exact ⟨fun _ => hst, g, hk ▸ hg, hm⟩
        · exact ⟨fun h => absurd h hk, g', hg', he⟩

theorem step (hw : SessionInv gap span seen w) {c : Call} (hgu : w.Guarded c) :
    SessionInv gap span (seen ++ (w.step c).1) (w.step c).2 := by
  cases c with
  | push grants row now => exact hw.push hgu
  | takeDue grants time => exact hw.takeDue hgu
  | watermark input time =>
    obtain ⟨hc, -, hh⟩ := step_et hw.et.wf hw.et.et (.watermark input time)
    refine (append_nil seen).symm ▸ hw.gain (hw.et.step _) hc hh fun k g hg e he => ?_
    exact .inr ⟨g, hg, he⟩
  | activity input active =>
    obtain ⟨hc, -, hh⟩ := step_et hw.et.wf hw.et.et (.activity input active)
    refine (append_nil seen).symm ▸ hw.gain (hw.et.step _) hc hh fun k g hg e he => ?_
    exact .inr ⟨g, hg, he⟩

end SessionInv

/-! ### The finality law -/

section

variable {w : BufferedWindow} (hw : Created spec external w)

include hw

theorem Created.etInv (het : spec.kind.usesEventTime = true) : w.EtInv := by
  refine ⟨hw.wf, by rw [isEt, hw.spec_eq, het], ?_, ?_⟩
  · rw [hw.eventTime]
    exact WindowSpec.valid_eventTimeField (hw.spec_eq ▸ hw.wf.valid) het
  · intro W hW
    have hn : w.hub.progress = none := by rw [hw.hub]; rfl
    simp [hn] at hW

variable {span gap : Int64}

theorem Created.sessionInv (hk : spec.kind = .sessionEventTime gap span) : SessionInv gap span [] w := by
  refine ⟨hw.etInv (by rw [hk]; rfl), by rw [hw.spec_eq, hk], ?_, ?_, ?_, ?_, ?_⟩ <;>
    simp [finalsFor, hw.groups]

theorem sessions_ordered
    (hk : spec.kind = .sessionEventTime gap span) {calls : List Call} (hg : Machine.Along step Guarded w calls) :
    SessionInv gap span (w.emitted calls) (w.after calls) :=
  run_induction (I := SessionInv gap span) (fun _ _ _ hG hI => hI.step hG)
    (hw.sessionInv hk) hg

end

theorem config_after (hw : w.EtInv) (calls : List Call) : (w.after calls).toBufferedConfig = w.toBufferedConfig :=
  (run_invariant (P := fun w' : BufferedWindow => w'.EtInv ∧ w'.toBufferedConfig = w.toBufferedConfig)
    (fun _ c h => ⟨h.1.step c, (step_et h.1.wf h.1.et c).1.trans h.2⟩) ⟨hw, rfl⟩ calls).2

/-- **Finality.** Once a watermark `W` has been reported, a readable event below it is
refused as late exactly when a watermark is reported at its push and it is not dropped as
a future event; and in every run whose pushes below the committed watermark find a
watermark reported, the sessions emitted for one key are disjoint and in order. -/
theorem finality {spec : WindowSpec} {input : Schema} {budgetKeys budgetTimers maxKeys maxTimers : ℕ}
    {external : Bool} {w₀ : BufferedWindow}
    (hnew : new spec input budgetKeys budgetTimers maxKeys maxTimers external = .ok w₀)
    (het : spec.kind.usesEventTime = true) :
    (∀ pre mid W, (w₀.after pre).progress = some W → ∀ grants row now t,
      row.values.length = input.fields.length → 0 ≤ now →
      (w₀.after (pre ++ mid)).timestamp row (max (w₀.after (pre ++ mid)).lastNow now) = .ok t →
      t < W →
      ((((w₀.after (pre ++ mid)).push grants row now).1 = .ok .late ∧
          ((w₀.after (pre ++ mid)).push grants row now).2.groups = (w₀.after (pre ++ mid)).groups) ↔
        (w₀.after (pre ++ mid)).progress.isSome ∧
          (w₀.after (pre ++ mid)).isFuture t (max (w₀.after (pre ++ mid)).lastNow now) = false)) ∧
    ∀ gap span, spec.kind = .sessionEventTime gap span → ∀ calls, Machine.Along step Guarded w₀ calls → ∀ key,
      (finalsFor w₀.keys.length key (w₀.emitted calls)).Pairwise (fun a b => a.2 ≤ b.1) ∧
      ∀ b ∈ finalsFor w₀.keys.length key (w₀.emitted calls), b.1 < b.2 := by
  obtain ⟨hc, hi⟩ := new_eq_ok hnew
  have hw₀ : w₀.EtInv := hc.etInv het
  refine ⟨?_, ?_⟩
  · intro pre mid W hW grants row now t hwi hn ht hlt
    -- the watermark reported after `pre` is committed there, and what is committed only grows
    obtain ⟨F, hF, hle⟩ := floor_after (hw₀.after pre) ((hw₀.after pre).lastEffective hW) mid
    rw [← after_append] at hF
    refine late_iff (hw₀.after _) hF grants ?_ hn ht (hlt.trans_le hle)
    rw [config_after hw₀, hi, hwi]
  · intro gap span hk calls hg key
    have hr := sessions_ordered hc hk hg
    have ho := hr.ordered key
    have hp := hr.proper key
    rw [config_after hw₀] at ho hp
    exact ⟨ho, hp⟩

/-! ### A session taken up again -/

def sampleSchema : Schema := { fields := [⟨"k", .int64, false⟩, ⟨"t", .int64, false⟩] }

/-- `COUNT(*)`. -/
def sampleCount : AggCall := { func := .count, input := none, aliasName := "n", countStar := true }

/-- A row of key `1`. -/
def sampleRow (t : Int64) : Row := ⟨[.int64 1, .int64 t]⟩

/-- Sessions of key `k` over event time `t`, with gap `10` and maximum duration `100`. -/
def sampleSessions : WindowSpec := (WindowSpec.new (.sessionEventTime 10 100) ["k"] [sampleCount]).eventTime "t" 0

/-- A new operator for `sampleSessions`. -/
def sampleWindow : BufferedWindow := Result.value (new sampleSessions sampleSchema 100 100 100 100 false) (by decide)

/-- Events at `100` and `200`, a drain at the watermark `200`. -/
def sampleCalls : List Call := [.push .all (sampleRow 100) 1000, .push .all (sampleRow 200) 1000, .takeDue .all 200]

theorem finality_sample : ((sampleWindow.after sampleCalls).push .all (sampleRow 105) 1000).1 = .ok .late ∧
    ((sampleWindow.after sampleCalls).push .all (sampleRow 105) 1000).2.groups =
      (sampleWindow.after sampleCalls).groups ∧
    (finalsFor 1 (encodeKeyValues [.int64 1]) (sampleWindow.emitted sampleCalls)).Pairwise
      (fun a b => a.2 ≤ b.1) := by
  have hn : new sampleSessions sampleSchema 100 100 100 100 false = .ok sampleWindow := Result.eq_value _
  have ha := finality hn rfl
  have hl := (ha.1 sampleCalls [] 200 (by decide) .all (sampleRow 105) 1000 105
    (by decide) (by decide) (by decide) (by decide)).mpr
    ⟨by decide, by decide⟩
  refine ⟨hl.1, hl.2, (ha.2 10 100 rfl sampleCalls ?_ _).1⟩
  -- no watermark is committed at the first push, and one is reported at the second
  refine ⟨fun t F _ hF _ => ?_, fun _ _ _ _ _ => ?_, ?_, trivial⟩
  · have hno : sampleWindow.hub.lastEffective = none := by decide
    simp [hno] at hF
  · decide
  · show progress _ = some 200
    decide

/-- After its only input goes idle the window takes the event at `105`, below the
watermark `200` it has reported and drained at, and closes the session `[105, 115)` after
`[100, 110)`. -/
theorem reopened : (sampleWindow.after sampleCalls).progress = some 200 ∧
    isAccepted ((sampleWindow.after (sampleCalls ++ [.activity .single false])).push .all
      (sampleRow 105) 1000).1 = true ∧
    finalsFor 1 (encodeKeyValues [.int64 1]) (sampleWindow.emitted (sampleCalls ++
        [.activity .single false, .push .all (sampleRow 105) 1000, .takeDue .all 200])) =
      [(100, 110), (105, 115)] := by
  decide

/-- **The schedule is that of the groups**, after any calls of an event-time window, failed ones included: a group has
a retained event and is scheduled at the next time that its events call for, and nothing else is scheduled. -/
theorem schedule_exact {spec : WindowSpec} {input : Schema} {budgetKeys budgetTimers maxKeys maxTimers : ℕ}
    {external : Bool} {w₀ : BufferedWindow}
    (hnew : new spec input budgetKeys budgetTimers maxKeys maxTimers external = .ok w₀)
    (het : spec.kind.usesEventTime = true) (calls : List Call) :
    (∀ k g, (w₀.after calls).groups.get? k = some g → g.events.entries ≠ [] ∧ encodeKeyValues g.key.values = k ∧
      g.deadline = g.nextDeadline spec.kind) ∧
    ∀ d k, (w₀.after calls).schedule.get? (toLex (d, k)) = some () ↔
      ∃ g, (w₀.after calls).groups.get? k = some g ∧ g.nextDeadline spec.kind = some d := by
  obtain ⟨hc, -⟩ := new_eq_ok hnew
  have hw := (hc.etInv het).after calls
  have hs : (w₀.after calls).spec = spec := by
    rw [← hc.spec_eq]
    exact congrArg _ (config_after (hc.etInv het) calls)
  have hd : ∀ k g, (w₀.after calls).groups.get? k = some g → g.deadline = g.nextDeadline spec.kind :=
    hs ▸ hw.wf.deadline
  refine ⟨fun k g hg => ⟨hw.wf.nonempty k g hg, hw.wf.encoded k g hg, hd k g hg⟩, fun d k => ?_⟩
  rw [hw.wf.scheduled]
  exact exists_congr fun g => and_congr_right fun hg => by rw [hd k g hg]

theorem schedule_exact_sample : ∃ g, (sampleWindow.after sampleCalls).groups.get?
    (encodeKeyValues [.int64 1]) = some g ∧
    g.nextDeadline (.sessionEventTime 10 100) = some 210 := by
  have hn : new sampleSessions sampleSchema 100 100 100 100 false = .ok sampleWindow := Result.eq_value _
  exact ((schedule_exact hn rfl sampleCalls).2 210 _).mp (by decide)

end BufferedWindow

end Sparrow.Runtime
