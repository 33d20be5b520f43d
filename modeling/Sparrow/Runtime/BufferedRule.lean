import Sparrow.Runtime.BufferedExecutor

/-!
# A rule for runs of the executor

What a window of time has taken in and sent out is related to what it still holds by
an invariant, and the executor changes the operator in few ways only: it moves the
clock, it changes the hub, it retains an event that is not below the *floor*, and it
settles a group at a time that is not above the floor. The floor is the committed
watermark of an event-time window, and the clock of a processing-time window.

## What is proved

* `Carried.run` — what every step carries over holds at the end of every run.

Idle and active controls are left out (`Input.Steady`): they can take back the floor.
-/

namespace Sparrow.Runtime

open Library Model Plan List BufferedWindow SortedMap Executor

variable {w w' : BufferedWindow} {c : BufferedConfig} {seen before : List Seen}
  {I : ℤ → List Seen → BufferedWindow → Prop} {x x' : Executor} {grants : ℕ → Grants} {row : Row} {time timestamp : ℤ}

namespace BufferedWindow

/-- No event below the floor is taken in any more, and nothing above it is drained. -/
def floor (w : BufferedWindow) : ℤ :=
  if w.isEt then max 0 (w.hub.lastEffective.getD 0) else w.lastNow

/-- What the executor keeps of any window of time without idle inputs. -/
structure Sane (c : BufferedConfig) (w : BufferedWindow) : Prop where
  wf : w.Wf
  ranged : w.Ranged
  config : w.toBufferedConfig = c
  kind : (∃ size delay, w.spec.kind.Slides size delay) ∨ ∃ gap span, w.spec.kind.IsSession gap span
  column : w.eventTime.isSome = w.isEt
  live : w.hub.Live
  committed : w.hub.Committed
  clock : 0 ≤ w.lastNow

theorem Sane.kind_eq {w w₀ : BufferedWindow} (h : w.Sane w₀.toBufferedConfig) :
    w.spec.kind = w₀.spec.kind := by rw [h.config]

theorem Sane.timed (hw : w.Sane c) : w.spec.kind.isCount = false := by
  rcases hw.kind with ⟨_, _, h | h⟩ | ⟨_, _, h | h⟩ <;> rw [h] <;> rfl

theorem Sane.isPt (hw : w.Sane c) : w.isPt = !w.isEt := by
  rcases hw.kind with ⟨_, _, h | h⟩ | ⟨_, _, h | h⟩ <;>
    simp [BufferedWindow.isPt, isEt, h, WindowKind.usesProcessingTimeTimer, WindowKind.usesEventTime]

/-- What a drain step at `time` emits for a group. -/
def Emits (w : BufferedWindow) (grants : Grants) (g : Group) (time : ℤ) (out : Option RowBatch) : Prop :=
  (g.dueAt time w.spec.kind = none ∧ out = none) ∨
    ∃ start stop consumed b, g.dueAt time w.spec.kind = some (start, stop, consumed) ∧
      out = some b ∧ w.aggregate grants g start stop start stop = .ok b

/-- An invariant over the floor, what the executor has shown, and the operator, that is
carried through every change the executor makes. -/
structure Carried (c : BufferedConfig) (I : ℤ → List Seen → BufferedWindow → Prop) : Prop where
  mono : ∀ {F F' seen w}, F ≤ F' → I F seen w → I F' seen w
  frame : ∀ {F seen w} (n : ℤ) (hub : WatermarkHub), I F seen w → I F seen { w with lastNow := n, hub }
  note : ∀ {F seen w s}, (∀ a, s ≠ .accepted a) → (∀ b, s ≠ .rows b) → I F seen w → I F (seen ++ [s]) w
  take : ∀ {F seen w key g deadline time grants out}, w.Sane c → I F seen w → time ≤ F →
    deadline ≤ time → w.groups.get? key = some g → g.deadline = some deadline →
    w.Emits grants g time out →
    I F (seen ++ out.toList.map .rows)
      (w.settle key g deadline time ((g.dueAt time w.spec.kind).map (·.2.2)))
  push : ∀ {F seen w row timestamp adm grants out}, w.Sane c → I F seen w → F ≤ timestamp →
    0 ≤ timestamp → w.Admits row timestamp adm →
    (w.insertEvent adm timestamp).immediateRow grants adm.group.key.encoded timestamp
      adm.sequence = .ok out →
    I F (seen ++ .accepted ⟨w.rowKey row, timestamp, adm.event.values⟩ ::
      out.toList.map .rows) (w.retained adm timestamp)

/-! ### One change at a time -/

variable {hub : WatermarkHub}

theorem Sane.framed (hw : w.Sane c) {n : ℤ} (hn : 0 ≤ n) (hl : hub.Live) (hc : hub.Committed) :
    Sane c { w with lastNow := n, hub } :=
  ⟨hw.wf.congr rfl rfl rfl, ⟨hw.ranged.fits, hw.ranged.numbered⟩, hw.config, hw.kind, hw.column, hl, hc, hn⟩

theorem Sane.of_kept (hw : w.Sane c) (hk : Kept w w') : w'.Sane c := by
  obtain ⟨hwf, hr, hc, hh, hn⟩ := hk
  refine ⟨hwf, hr, hc.trans hw.config, ?_, ?_, hh ▸ hw.live, hh ▸ hw.committed, hw.clock.trans hn⟩
  · rw [hc]
    exact hw.kind
  · unfold isEt
    rw [hc]
    exact hw.column

theorem Sane.isEt_eq (hw : w.Sane c) (hw' : w'.Sane c) : w'.isEt = w.isEt := by
  unfold isEt
  rw [hw.config, hw'.config]

/-- At the clock of a processing-time window, or at any time of an event-time window, a drain
step settles a due group of the operator itself. -/
theorem Sane.takeDue (hw : w.Sane c) {grants : Grants} (hc : w.isPt = true → time = w.lastNow)
    {out : Option RowBatch} (hdu : w.due time = true) (h : w.takeDue grants time = (.ok out, w')) :
    ∃ deadline key g, deadline ≤ time ∧ w.groups.get? key = some g ∧ g.deadline = some deadline ∧
      w.Emits grants g time out ∧
      w' = w.settle key g deadline time ((g.dueAt time w.spec.kind).map (·.2.2)) := by
  obtain ⟨t, n, deadline, key, g, ht, -, hle, hg, hd, rfl, ho⟩ := takeDue_ok hw.wf hdu h
  -- reading the clock at its own value changes nothing
  have hs : t = time ∧ ({ w with lastNow := n } : BufferedWindow) = w := by
    cases hpt : w.isPt with
    | false =>
      rw [hpt] at ht
      obtain ⟨ht, hn⟩ := Prod.mk.inj ht
      exact ⟨(Except.ok.inj ht).symm, hn.symm⟩
    | true =>
      obtain rfl := hc hpt
      rw [hpt, if_pos rfl, now_eq hw.timed hw.clock, max_self] at ht
      obtain ⟨ht, hn⟩ := Prod.mk.inj ht
      exact ⟨(Except.ok.inj ht).symm, hn.symm⟩
  obtain ⟨rfl, hn⟩ := hs
  rw [hn]
  exact ⟨deadline, key, g, hle, hg, hd, ho, rfl⟩

variable {rows : List RowBatch}

/-- **The rule for drains.** -/
theorem Carried.drain (hI : Carried c I) {F : ℤ} (hw : w.Sane c) (hinv : I F seen w) (hF : time ≤ F)
    (hc : w.isPt = true → time = w.lastNow) (h : w.drain grants time = .ok (rows, w')) :
    w'.Sane c ∧ w'.hub = w.hub ∧ w'.lastNow = w.lastNow ∧ I F (seen ++ rows.map .rows) w' := by
  have hs : ∀ rows w₁ n out w₂, (w₁.Sane c ∧ w₁.hub = w.hub ∧ w₁.lastNow = w.lastNow ∧
        I F (seen ++ rows.map .rows) w₁) → w₁.due time = true →
      w₁.takeDue (grants n) time = (.ok out, w₂) → (w₂.Sane c ∧ w₂.hub = w.hub ∧
        w₂.lastNow = w.lastNow ∧ I F (seen ++ (rows ++ out.toList).map .rows) w₂) := by
    rintro rows w₁ n out w₂ ⟨hw₁, hh, hn, hinv⟩ hdu ht
    have hc₁ : w₁.isPt = true → time = w₁.lastNow := fun hpt => by
      rw [hn]
      refine hc ?_
      rw [hw.isPt, ← hw.isEt_eq hw₁, ← hw₁.isPt, hpt]
    have hk := takeDue_kept hw₁.wf hw₁.ranged hdu ht
    obtain ⟨deadline, key, g, hle, hg, hd, ho, rfl⟩ := hw₁.takeDue hc₁ hdu ht
    obtain ⟨_, _, _, hf⟩ := settle_frame w₁ key g deadline time
      ((g.dueAt time w₁.spec.kind).map (·.2.2))
    refine ⟨hw₁.of_kept hk, hk.hub.trans hh, ?_, ?_⟩
    · rw [hf]
      exact hn
    · rw [map_append, ← append_assoc]
      exact hI.take hw₁ hinv hF hle hg hd ho
  exact drain_induction (I := fun rows w₁ => w₁.Sane c ∧ w₁.hub = w.hub ∧ w₁.lastNow = w.lastNow ∧
    I F (seen ++ rows.map .rows) w₁) hs [] ⟨hw, rfl, rfl, by simpa using hinv⟩ h

/-! ### Retaining an event -/

theorem retainedGroup_timed (hc : w.spec.kind.isCount = false) (row : Row) (timestamp : ℤ) (event : Event) :
    w.retainedGroup row timestamp event =
      ((w.groupFor row).added timestamp ((w.groupFor row).sequence + 1) event).emittedNow timestamp
        ((w.groupFor row).sequence + 1) w.spec.kind := by
  have he : ∀ g : Group, g.excess w.spec.kind = 0 := by
    intro g
    cases hk : w.spec.kind <;> simp_all [Group.excess, WindowKind.isCount]
  simp [retainedGroup, hc, Group.trimmed, he]

theorem mem_retainedGroup (hc : w.spec.kind.isCount = false) {event : Event} {e : EventEntry}
    (he : e ∈ (w.retainedGroup row timestamp event).events.entries) :
    e.1 = toLex (timestamp, (w.groupFor row).sequence + 1) ∨ ∃ e' ∈ (w.groupFor row).events.entries, e.1 = e'.1 := by
  have ha : ∀ e, e ∈ ((w.groupFor row).added timestamp ((w.groupFor row).sequence + 1)
      event).events.entries → e.1 = toLex (timestamp, (w.groupFor row).sequence + 1) ∨
        ∃ e' ∈ (w.groupFor row).events.entries, e.1 = e'.1 := by
    intro e he
    rcases mem_insertEntry he with rfl | hm
    · exact .inl rfl
    · exact .inr ⟨e, hm, rfl⟩
  rw [retainedGroup_timed hc] at he
  rcases emittedNow_eq ((w.groupFor row).added timestamp ((w.groupFor row).sequence + 1) event)
    timestamp ((w.groupFor row).sequence + 1) w.spec.kind with heq | heq
  · rw [heq] at he
    exact ha e he
  · rw [heq] at he
    obtain ⟨e₀, he₀, rfl⟩ := List.mem_map.mp he
    have hf : (if e₀.1 = toLex (timestamp, (w.groupFor row).sequence + 1) then
        (e₀.1, { e₀.2 with pending := false }) else e₀).1 = e₀.1 := by split_ifs <;> rfl
    rw [hf]
    exact ha e₀ he₀

theorem emittedNow_sequence (g : Group) (time : ℤ) (sequence : ℕ) (kind : WindowKind) :
    (g.emittedNow time sequence kind).sequence = g.sequence := by
  rcases emittedNow_eq g time sequence kind with h | h <;> rw [h]

theorem retained_kept (hw : w.Wf) (hr : w.Ranged) (hc : w.spec.kind.isCount = false) {adm : Admission}
    (h0 : 0 ≤ timestamp) (ha : w.Admits row timestamp adm) : Kept w (w.retained adm timestamp) := by
  obtain ⟨hwf, hgr⟩ := retained_spec hw ha
  obtain ⟨_, _, _, _, hf⟩ := w.retained_frame adm timestamp
  have hfi : ∀ t, (w.retained adm timestamp).endpointsFit t = w.endpointsFit t := fun t => by
    rw [hf]
    rfl
  have hold : ∀ e' ∈ (w.groupFor row).events.entries,
      (0 ≤ timeOf e' ∧ w.endpointsFit (timeOf e') = true) ∧ seqOf e' ≤ (w.groupFor row).sequence := by
    intro e' he'
    obtain ⟨g, hg, hm⟩ := mem_groupFor he'
    have hs : (w.groupFor row).sequence = g.sequence := by simp [groupFor, hg]
    exact ⟨hr.fits _ g hg e' hm, hs ▸ hr.numbered _ g hg e' hm⟩
  refine ⟨hwf, ⟨fun k g hg e he => ?_, fun k g hg e he => ?_⟩, by rw [hf], by rw [hf], by rw [hf]⟩
  · rw [hfi]
    rw [hgr, get?_insert] at hg
    split_ifs at hg
    · cases hg
      rcases mem_retainedGroup hc he with hn | ⟨e', he', heq⟩
      · rw [timeOf, hn]
        exact ⟨h0, ha.fits⟩
      · rw [timeOf, heq]
        exact (hold e' he').1
    · exact hr.fits k g hg e he
  · rw [hgr, get?_insert] at hg
    split_ifs at hg
    · cases hg
      have hs : (w.retainedGroup row timestamp adm.event).sequence = (w.groupFor row).sequence + 1 := by
        rw [retainedGroup_timed hc, emittedNow_sequence]
        rfl
      rw [hs]
      rcases mem_retainedGroup hc he with hn | ⟨e', he', heq⟩
      · rw [seqOf, hn]
        exact le_rfl
      · rw [seqOf, heq]
        exact (hold e' he').2.trans (Nat.le_succ _)
    · exact hr.numbered k g hg e he

theorem Sane.floor_le (hw : w.Sane c) (hts : w.timestamp row w.lastNow = .ok timestamp)
    (hla : w.isLate timestamp = false) : w.floor ≤ timestamp ∧ 0 ≤ timestamp := by
  cases het : w.isEt with
  | false =>
    have hc : w.eventTime = none := by
      have := hw.column
      rw [het] at this
      simpa using this
    obtain rfl : w.lastNow = timestamp := by simpa [BufferedWindow.timestamp, hc] using hts
    simp only [floor, het, Bool.false_eq_true, ↓reduceIte, le_refl, true_and]
    exact hw.clock
  | true =>
    have h0 := (timestamp_bounds (by rw [hw.column, het]) hts).1
    refine ⟨?_, h0⟩
    have hp : w.progress = w.hub.lastEffective := by
      rw [progress, if_pos het, hw.live.progress_eq hw.committed]
    rw [floor, if_pos het]
    cases hl : w.hub.lastEffective with
    | none => simpa using h0
    | some W =>
      simp only [isLate, het, hp, hl, Option.any_some, Bool.true_and, decide_eq_false_iff_not, not_lt] at hla
      simpa using ⟨h0, hla⟩

theorem floor_mono_hub (h : WatermarkHub.Step w.hub hub) : w.floor ≤ floor { w with hub } := by
  have het : isEt { w with hub } = w.isEt := rfl
  unfold floor
  rw [het]
  split_ifs
  · cases hl : w.hub.lastEffective with
    | none => simp
    | some W =>
      obtain ⟨W', hW', hle⟩ := h.floor_le hl
      simp only [hW', Option.getD_some]
      omega
  · exact le_rfl

theorem floor_mono_clock {n : ℤ} (h : w.lastNow ≤ n) : w.floor ≤ floor { w with lastNow := n } := by
  have het : isEt { w with lastNow := n } = w.isEt := rfl
  unfold floor
  rw [het]
  split_ifs
  · exact le_rfl
  · exact h

theorem Sane.floor_kept (hw : w.Sane c) (hw' : w'.Sane c) (hh : w'.hub = w.hub) (hn : w'.lastNow = w.lastNow) :
    w'.floor = w.floor := by
  unfold floor
  rw [hw.isEt_eq hw', hh, hn]

theorem Sane.push (hw : w.Sane c) {grants : Grants} {ingest : Ingest}
    (h : w.push grants row w.lastNow = (.ok ingest, w')) :
    (∃ n, w.lastNow ≤ n ∧ w' = { w with lastNow := n } ∧ (ingest = .late ∨ ingest = .future)) ∨
      ∃ timestamp adm out hub, w.timestamp row w.lastNow = .ok timestamp ∧ w.floor ≤ timestamp ∧
        0 ≤ timestamp ∧ w.Admits row timestamp adm ∧
        (w.insertEvent adm timestamp).immediateRow grants adm.group.key.encoded timestamp
          adm.sequence = .ok out ∧
        ingest = .accepted out ∧ w' = { w.retained adm timestamp with hub } ∧
        WatermarkHub.Step w.hub hub ∧ hub.Live := by
  rcases w.push_cases grants row w.lastNow with ⟨r, n, hp, hn, hr⟩ |
      ⟨t, n, timestamp, adm, hno, -, -, hts, -, hl, ha, hp⟩
  · cases hp.symm.trans h
    refine .inl ⟨n, hn, rfl, ?_⟩
    cases ingest with
    | accepted out => exact absurd rfl (hr out)
    | late => exact .inl rfl
    | future => exact .inr rfl
  · rw [now_eq hw.timed hw.clock, max_self] at hno
    obtain ⟨ht, hs⟩ := Prod.mk.inj hno
    cases ht
    rw [← hs] at hp
    rw [h] at hp
    have ha := admission_eq_ok ha
    obtain ⟨hf, h0⟩ := hw.floor_le hts hl
    cases hi : (w.insertEvent adm timestamp).immediateRow grants adm.group.key.encoded timestamp
        adm.sequence with
    | error e => simp [retain, hi] at hp
    | ok out =>
      simp only [retain, hi] at hp
      obtain ⟨r, hub, ho, hst, hli, hr⟩ := observe_cases (w.retained adm timestamp) timestamp
        w.lastNow out
      have hh : (w.retained adm timestamp).hub = w.hub := (retained_kept hw.wf hw.ranged hw.timed h0 ha).hub
      cases ho.symm.trans hp.symm
      refine .inr ⟨timestamp, adm, out, hub, hts, hf, h0, ha, hi, ?_, rfl, hh ▸ hst, hli (hh ▸ hw.live)⟩
      rcases hr with hr | ⟨e, hr⟩
      · exact Except.ok.inj hr
      · simp at hr

/-- **The rule for a push at the clock.** -/
theorem Carried.pushed (hI : Carried c I) (hw : x.op.Sane c) (hinv : I x.op.floor before x.op) {grants : Grants}
    (h : x.pushed grants row x.op.lastNow = .ok (seen, x')) :
    x'.op.Sane c ∧ I x'.op.floor (before ++ seen) x'.op := by
  unfold Executor.pushed at h
  rcases hp : x.op.push grants row x.op.lastNow with ⟨_ | _, op⟩ <;> rw [hp] at h
  · simp at h
  · dsimp only at h
    rcases hw.push hp with ⟨n, hn, rfl, hr⟩ |
        ⟨timestamp, adm, out, hub, hts, hf, h0, had, hi, rfl, rfl, hst, hl⟩
    · -- refused: only the clock has moved
      have hno : ∃ s, seen = [s] ∧ (∀ a, s ≠ .accepted a) ∧ (∀ b, s ≠ .rows b) ∧
          x' = { x with op := { x.op with lastNow := n } } := by
        rcases hr with rfl | rfl <;> simp only [ingested, Except.map, Except.ok.injEq,
          Prod.mk.injEq] at h <;> obtain ⟨rfl, rfl⟩ := h <;> exact ⟨_, rfl, by simp, by simp, rfl⟩
      obtain ⟨s, rfl, ha, hb, rfl⟩ := hno
      refine ⟨hw.framed (hw.clock.trans hn) hw.live hw.committed, hI.note ha hb ?_⟩
      exact hI.mono (floor_mono_clock hn) (hI.frame n x.op.hub hinv)
    · have hk := retained_kept hw.wf hw.ranged hw.timed h0 had
      have hs := hw.of_kept hk
      have har : x.op.arrival row x.op.lastNow =
          .ok ⟨x.op.rowKey row, timestamp, adm.event.values⟩ := by
        simp only [arrival, hts, had.values]
        rfl
      simp only [ingested, har] at h
      cases h
      have hpu := hI.push hw hinv hf h0 had hi
      refine ⟨hs.framed hs.clock hl (hst.committed hw.committed), ?_⟩
      have hle : x.op.floor ≤ floor { x.op.retained adm timestamp with hub } := by
        have hnow : (x.op.retained adm timestamp).lastNow = x.op.lastNow := by
          obtain ⟨_, _, _, _, hfr⟩ := x.op.retained_frame adm timestamp
          rw [hfr]
        rw [← hw.floor_kept hs hk.hub hnow]
        exact floor_mono_hub (hk.hub ▸ hst)
      exact hI.mono hle (hI.frame _ hub hpu)

/-! ### The rule for one input -/

section

variable (hI : Carried c I) (hw : x.op.Sane c) (hinv : I x.op.floor before x.op)

include hI hw hinv

/-- **The rule for reading the clock.** -/
theorem Carried.clocked {clock now : ℤ} (h : x.clocked grants clock = .ok (now, seen, x')) :
    x'.op.Sane c ∧ now = x'.op.lastNow ∧ I x'.op.floor (before ++ seen) x'.op := by
  unfold Executor.clocked at h
  by_cases hne : clock < 0
  · simp [BufferedWindow.now, hw.timed, hne] at h
  set n := max x.op.lastNow clock with hn
  have hle : x.op.lastNow ≤ n := le_max_left _ _
  have hs : Sane c { x.op with lastNow := n } := hw.framed (hw.clock.trans hle) hw.live hw.committed
  have hm : I (floor { x.op with lastNow := n }) before { x.op with lastNow := n } :=
    hI.mono (floor_mono_clock hle) (hI.frame n x.op.hub hinv)
  rw [now_eq hw.timed (not_lt.mp hne), ← hn] at h
  dsimp only at h
  split_ifs at h with hpt
  · obtain ⟨r, hd, h⟩ := map_eq_ok.mp h
    simp only [Prod.mk.injEq] at h
    obtain ⟨rfl, rfl, rfl⟩ := h
    have het : isEt { x.op with lastNow := n } = false := by
      have := hs.isPt
      rw [hpt] at this
      simpa using this.symm
    have hf : n ≤ floor { x.op with lastNow := n } := by
      rw [floor, het]
      exact le_rfl
    obtain ⟨hs', hh, hno, hi'⟩ := hI.drain hs hm hf (fun _ => rfl) hd
    refine ⟨hs', hno.symm, ?_⟩
    rw [hs.floor_kept hs' hh hno]
    exact hi'
  · simp only [Except.ok.injEq, Prod.mk.injEq] at h
    obtain ⟨rfl, rfl, rfl⟩ := h
    exact ⟨hs, rfl, by simpa using hm⟩

/-- **The rule for progress.** -/
theorem Carried.progress (h : x.progress grants = .ok (seen, x')) :
    x'.op.Sane c ∧ I x'.op.floor (before ++ seen) x'.op := by
  unfold Executor.progress at h
  cases hp : x.op.progress with
  | none =>
    simp only [hp] at h
    cases h
    exact ⟨hw, by simpa using hinv⟩
  | some wm =>
    have het : x.op.isEt = true := by
      by_contra hne
      simp [BufferedWindow.progress, hne] at hp
    have hf : wm ≤ x.op.floor := by
      rw [BufferedWindow.progress, if_pos het] at hp
      rw [floor, if_pos het, hw.committed wm hp]
      exact le_max_right _ _
    have hpt : x.op.isPt = false := by rw [hw.isPt, het]; rfl
    simp only [hp] at h
    obtain ⟨⟨rows, op⟩, hd, h⟩ := bind_eq_ok.mp h
    obtain ⟨hs', hh, hn, hi'⟩ := hI.drain hw hinv hf (by simp [hpt]) hd
    rw [← hw.floor_kept hs' hh hn] at hi'
    split_ifs at h
    · cases h
      refine ⟨hs', ?_⟩
      rw [← append_assoc]
      exact hI.note (by simp) (by simp) hi'
    · cases h
      exact ⟨hs', hi'⟩

/-- **The rule for one input.** -/
theorem Carried.step {i : Input}
    (hi : i.Steady) (h : x.step i = .ok (seen, x')) : x'.op.Sane c ∧ I x'.op.floor (before ++ seen) x'.op := by
  cases i with
  | row push drain row clock =>
    obtain ⟨⟨now, drained, x₁⟩, hc, h⟩ := bind_eq_ok.mp h
    obtain ⟨⟨taken, x₂⟩, hpu, h⟩ := bind_eq_ok.mp h
    obtain ⟨⟨rows, x₃⟩, hp, h⟩ := bind_eq_ok.mp h
    cases h
    obtain ⟨hw₁, rfl, hi₁⟩ := hI.clocked hw hinv hc
    obtain ⟨hw₂, hi₂⟩ := hI.pushed hw₁ hi₁ hpu
    obtain ⟨hw₃, hi₃⟩ := hI.progress hw₂ hi₂ hp
    refine ⟨hw₃, ?_⟩
    rwa [← append_assoc, ← append_assoc]
  | watermark drain input time =>
    have hs := x.op.hub.step_setWatermark input time
    have hl := hw.live.setWatermark input time
    simp only [Executor.step, watermark] at h
    rcases hse : x.op.hub.setWatermark input time with ⟨_ | _, hub⟩ <;> rw [hse] at h hs hl
    · simp [Except.map, controlled] at h
    · simp only [Except.map, controlled] at h
      refine hI.progress (x := { x with op := { x.op with hub } })
        (hw.framed hw.clock hl (hs.committed hw.committed)) ?_ h
      exact hI.mono (floor_mono_hub hs) (hI.frame x.op.lastNow hub hinv)
  | activity drain input active => exact absurd hi id
  | tick drain clock =>
    simp only [Executor.step] at h
    split_ifs at h
    · obtain ⟨r, hc, ⟨⟩⟩ := map_eq_ok.mp h
      obtain ⟨hw₁, -, hi₁⟩ := hI.clocked hw hinv hc
      exact ⟨hw₁, hi₁⟩
    · cases h
      exact ⟨hw, by simpa using hinv⟩

end

/-! ### The end of a run -/

variable {k : Bytes}

theorem Sane.deadline (hw : w.Sane c) {g : Group} (hg : w.groups.get? k = some g) :
    ∃ d, g.deadline = some d ∧ d ≤ i64Max := by
  obtain ⟨f, rest, he⟩ := exists_cons_of_ne_nil (hw.wf.nonempty k g hg)
  rw [hw.wf.deadline k g hg]
  rcases hw.kind with ⟨size, delay, hk⟩ | ⟨gap, span, hk⟩
  · rw [g.nextDeadline_slides hk]
    cases hf : g.firstPending with
    | some e =>
      exact ⟨_, rfl, (hw.ranged.sliding hk hg (mem_of_find?_eq_some hf)).2.1⟩
    | none =>
      refine ⟨timeOf f + size, by simp [first?, he], ?_⟩
      exact (hw.ranged.sliding hk hg (by simp [he])).2.2
  · obtain ⟨hga, hs⟩ := WindowSpec.valid_session hw.wf.valid hk
    refine ⟨(Sessions.first timeOf gap span f rest).2.1, ?_, ?_⟩
    · rcases hk with hk | hk <;>
        simp [hk, Group.nextDeadline, Group.session_eq hga hs he]
    · have hfi := (hw.ranged.fits k g hg f (by simp [he])).2
      have hst := Group.session_stop_le gap span f rest
      rcases hk with hk | hk <;> simp only [endpointsFit, hk, fitsI64_iff] at hfi <;>
        omega

theorem Sane.groups_nil (hw : w.Sane c) (hn : ∀ d k, d ≤ i64Max → w.schedule.get? (toLex (d, k)) ≠ some ()) :
    w.groups.entries = [] := by
  refine List.eq_nil_iff_forall_not_mem.mpr fun ⟨k, g⟩ hm => ?_
  have hg := SortedMap.mem_entries_iff.mp hm
  obtain ⟨d, hd, hle⟩ := hw.deadline hg
  exact hn d k hle ((hw.wf.scheduled d k).mpr ⟨g, hg, hd⟩)

theorem first?_le {d : ℤ} (h : w.schedule.get? (toLex (d, k)) = some ()) :
    ∃ e, w.schedule.first? = some e ∧ (ofLex e.1).1 ≤ d := by
  obtain ⟨e, he, hle⟩ := SortedMap.first?_le h
  exact ⟨e, he, (Prod.Lex.le_iff.mp hle).elim le_of_lt fun heq => heq.1.le⟩

theorem drain_work (hw : w.Wf) (hr : w.Ranged) (h : w.drain grants time = .ok (rows, w'))
    (hd : w.due time = true) : w'.work < w.work := by
  have hle : ∀ n w rows, w.Wf → w.Ranged → drainFor grants time n w = .ok (rows, w') → w'.work ≤ w.work := by
    intro n
    induction n with
    | zero =>
      intro w rows _ _ h
      obtain ⟨-, rfl⟩ : [] = rows ∧ w = w' := by simpa [drainFor] using h
      exact le_rfl
    | succ n ih =>
      intro w rows hw hr h
      rcases drainFor_succ h with ⟨-, -, rfl⟩ | ⟨hd, out, w₁, more, ht, hre, -⟩
      · exact le_rfl
      · have hk := takeDue_kept hw hr hd ht
        exact (ih w₁ more hk.wf hk.ranged hre).trans (work_lt_of_takeDue hw hr hd ht).le
  obtain ⟨n, hn⟩ : ∃ n, w.work = n + 1 := Nat.exists_eq_succ_of_ne_zero (work_pos_of_due hw hd).ne'
  unfold drain at h
  rw [hn] at h
  rcases drainFor_succ h with ⟨hno, -⟩ | ⟨-, out, w₁, more, ht, hre, -⟩
  · simp [hd] at hno
  · have hk := takeDue_kept hw hr hd ht
    exact (hle n w₁ more hk.wf hk.ranged hre).trans_lt (work_lt_of_takeDue hw hr hd ht)

theorem Sane.clocked_work (hw : x.op.Sane c) (hpt : x.op.isPt = true) {d : ℤ} (hd : x.op.deadline = some d)
    {clock now : ℤ} (hc : d ≤ clock) (h : x.clocked grants clock = .ok (now, seen, x')) :
    x'.op.work < x.op.work := by
  unfold clocked at h
  by_cases hn : clock < 0
  · simp [BufferedWindow.now, hw.timed, hn] at h
  rw [now_eq hw.timed (not_lt.mp hn)] at h
  dsimp only at h
  rw [if_pos (show BufferedWindow.isPt { x.op with lastNow := max x.op.lastNow clock } = true from hpt)] at h
  obtain ⟨r, hdr, ⟨⟩⟩ := map_eq_ok.mp h
  refine drain_work (w := { x.op with lastNow := max x.op.lastNow clock })
    (hw.wf.congr rfl rfl rfl) ⟨hw.ranged.fits, hw.ranged.numbered⟩ hdr ?_
  rw [BufferedWindow.deadline, if_pos hpt] at hd
  obtain ⟨e, he, rfl⟩ := Option.map_eq_some_iff.mp hd
  rw [due, he, Option.any_some]
  exact decide_eq_true (hc.trans (le_max_right _ _))

variable {wake : ℤ → ℤ}

/-- **The rule for sleeping from deadline to deadline**: the rounds suffice to reach the end. -/
theorem Carried.sleepFor (hI : Carried c I) (hwa : ∀ d, d ≤ wake d) {n : ℕ} (hw : x.op.Sane c)
    (hpt : x.op.isPt = true) (hinv : I x.op.floor before x.op) (hn : x.op.work ≤ n)
    (h : sleepFor grants wake n x = .ok (seen, x')) :
    x'.op.Sane c ∧ I x'.op.floor (before ++ seen) x'.op ∧ x'.op.deadline = none := by
  induction n generalizing x before seen with
  | zero =>
    simp only [sleepFor, Except.ok.injEq, Prod.mk.injEq] at h
    obtain ⟨rfl, rfl⟩ := h
    refine ⟨hw, by simpa using hinv, ?_⟩
    -- without work nothing is scheduled
    by_contra hs
    obtain ⟨d, hd⟩ := Option.ne_none_iff_exists'.mp hs
    have hdu : x.op.due d = true := by
      rw [deadline, if_pos hpt] at hd
      obtain ⟨e, he, rfl⟩ := Option.map_eq_some_iff.mp hd
      simp [due, he]
    have := work_pos_of_due hw.wf hdu
    omega
  | succ n ih =>
    simp only [sleepFor] at h
    cases hd : x.op.deadline with
    | none =>
      simp only [hd, Except.ok.injEq, Prod.mk.injEq] at h
      obtain ⟨rfl, rfl⟩ := h
      exact ⟨hw, by simpa using hinv, hd⟩
    | some d =>
      simp only [hd] at h
      obtain ⟨⟨now, rows, x₁⟩, hc, h⟩ := bind_eq_ok.mp h
      obtain ⟨⟨more, x₂⟩, hr, h⟩ := bind_eq_ok.mp h
      obtain ⟨rfl, rfl⟩ := h
      obtain ⟨hw₁, -, hi₁⟩ := hI.clocked hw hinv hc
      have hp₁ : x₁.op.isPt = true := by rw [hw₁.isPt, hw.isEt_eq hw₁, ← hw.isPt, hpt]
      have hlt := hw.clocked_work hpt hd (hwa d) hc
      rw [← append_assoc]
      exact ih hw₁ hp₁ hi₁ (by omega) hr

/-- **The rule for the inputs of a run.** -/
theorem Carried.inputs (hI : Carried c I) (hw : x.op.Sane c) (hinv : I x.op.floor [] x.op)
    {inputs : List Input} (hs : ∀ i ∈ inputs, i.Steady)
    (h : Machine.runOk Executor.step x inputs = .ok (seen, x')) :
    x'.op.Sane c ∧ I x'.op.floor seen x'.op := by
  obtain ⟨hw', hi'⟩ := Machine.runOk_induction
    (I := fun seen (x : Executor) => x.op.Sane c ∧ I x.op.floor seen x.op)
    (fun _ _ _ _ _ hi hst hI' => hI.step hI'.1 hI'.2 hi hst) hs ⟨hw, hinv⟩ h
  exact ⟨hw', hi'⟩

/-- **The rule for whole runs.** A run without idle controls and errors keeps what is
carried, and retains nothing at its end. -/
theorem Carried.run (hI : Carried c I) (hw : x.op.Sane c) (hinv : I x.op.floor [] x.op) {inputs : List Input}
    (hst : ∀ i ∈ inputs, i.Steady) (hwa : ∀ d, d ≤ wake d)
    (h : x.run inputs grants wake = .ok (seen, x')) :
    x'.op.Sane c ∧ (∃ F, I F seen x'.op) ∧ x'.op.groups.entries = [] := by
  obtain ⟨⟨before, x₁⟩, hr, h⟩ := bind_eq_ok.mp h
  obtain ⟨⟨last, x₂⟩, hc, h⟩ := bind_eq_ok.mp h
  simp only [pure, Except.pure, Except.ok.injEq, Prod.mk.injEq] at h
  obtain ⟨rfl, rfl⟩ := h
  obtain ⟨hw₁, hi₁⟩ := hI.inputs hw hinv hst hr
  unfold close at hc
  split_ifs at hc with het
  · have hpt : x₁.op.isPt = false := by rw [hw₁.isPt, het]; rfl
    obtain ⟨r, hd, ⟨⟩⟩ := map_eq_ok.mp hc
    obtain ⟨hw₂, -, -, hi₂⟩ := hI.drain hw₁ (hI.mono (le_max_left x₁.op.floor i64Max) hi₁)
      (le_max_right _ _) (by simp [hpt]) hd
    refine ⟨hw₂, ⟨_, hi₂⟩, hw₂.groups_nil fun d k hle hs => ?_⟩
    -- nothing is due at the end of time
    obtain ⟨e, he, hed⟩ := first?_le hs
    have hn := drain_not_due hw₁.wf hw₁.ranged hd
    rw [due, he, Option.any_some] at hn
    exact of_decide_eq_false hn (hed.trans hle)
  · have hpt : x₁.op.isPt = true := by rw [hw₁.isPt]; simpa using het
    obtain ⟨hw₂, hi₂, hno⟩ := hI.sleepFor hwa hw₁ hpt hi₁ le_rfl hc
    refine ⟨hw₂, ⟨_, hi₂⟩, hw₂.groups_nil fun d k _ hs => ?_⟩
    obtain ⟨e, he, -⟩ := first?_le hs
    have hp₂ : x₂.op.isPt = true := by rw [hw₂.isPt, hw₁.isEt_eq hw₂, ← hw₁.isPt, hpt]
    simp [deadline, hp₂, he] at hno

variable {spec : WindowSpec} {external : Bool}

theorem Created.floor_nonneg (hw : Created spec external w) : 0 ≤ w.floor := by
  unfold floor
  split_ifs
  · exact le_max_left _ _
  · rw [hw.lastNow]

theorem Created.sane (hw : Created spec external w)
    (hk : (∃ size delay, spec.kind.Slides size delay) ∨ ∃ gap span, spec.kind.IsSession gap span) :
    w.Sane w.toBufferedConfig := by
  have hv := hw.wf.valid
  rw [hw.spec_eq] at hv
  refine ⟨hw.wf, ⟨by simp [hw.groups], by simp [hw.groups]⟩, rfl, by rw [hw.spec_eq]; exact hk,
    ?_, ?_, ?_, by rw [hw.lastNow]⟩
  · rw [hw.eventTime, isEt, hw.spec_eq]
    cases het : spec.kind.usesEventTime with
    | true => exact WindowSpec.valid_eventTimeField hv het
    | false => rw [WindowSpec.valid_no_eventTimeField hv het]; rfl
  · rw [hw.hub]
    refine ⟨by simp [insertEntry], ?_, by simp⟩
    simp [insertEntry, InputState.new]
  · intro W hW
    have hn : w.hub.progress = none := by rw [hw.hub]; rfl
    simp [hn] at hW

end BufferedWindow

end Sparrow.Runtime
