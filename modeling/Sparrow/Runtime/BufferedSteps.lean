import Sparrow.Runtime.BufferedWindow
import Sparrow.Library.Machine

/-!
# What one call of a buffered window does

Each operation of `BufferedWindow` is described once, by the cases it can end in;
the later modules cite these descriptions and do not unfold the operations.

## What is proved

* `push_cases`, `takeDue_cases` — a push leaves everything but the clock alone, or admits
  the event and retains it; a group that is due is fired, or only scheduled anew.
* `retained_spec` — the schedule still holds exactly the deadlines of the groups (`Wf`).
-/

namespace Sparrow.Runtime

open Library Model Plan WindowKind Option BufferedWindow SortedMap Runtime.Group

variable {w w' : BufferedWindow} {row : Row} {g : Group} {t now timestamp : ℤ} {k : Bytes} {grants : Grants}
  {adm : Admission}

namespace BufferedWindow

/-! ### Frames -/

theorem unschedule_frame (w : BufferedWindow) (key : Bytes) (d : Option ℤ) :
    ∃ schedule, w.unschedule key d = { w with schedule } := by
  cases d with
  | none => exact ⟨w.schedule, rfl⟩
  | some t => exact ⟨_, rfl⟩

theorem reschedule_frame (w : BufferedWindow) (key : Bytes) :
    ∃ schedule groups, w.reschedule key = { w with schedule, groups } := by
  unfold reschedule
  cases w.groups.get? key with
  | none => exact ⟨w.schedule, w.groups, rfl⟩
  | some g =>
    obtain ⟨schedule, h⟩ := w.unschedule_frame key g.deadline
    simp only [h]
    cases g.nextDeadline w.spec.kind with
    | none | some t => exact ⟨_, _, rfl⟩

theorem insertEvent_frame (w : BufferedWindow) (adm : Admission) (timestamp : ℤ) :
    ∃ schedule groups bytes rows, w.insertEvent adm timestamp =
      { w with schedule, groups, bytes, maxGroupRowsSeen := rows } := by
  unfold insertEvent
  obtain ⟨schedule, h⟩ := w.unschedule_frame adm.group.key.encoded adm.group.deadline
  simp only [h]
  exact ⟨_, _, _, _, rfl⟩

theorem settle_frame (w : BufferedWindow) (key : Bytes) (g : Group) (deadline time : ℤ)
    (consumed : Option (ℤ ×ₗ ℕ)) : ∃ schedule groups bytes, w.settle key g deadline time consumed =
      { w with schedule, groups, bytes } := by
  unfold settle
  dsimp only
  split_ifs
  · exact ⟨_, _, _, rfl⟩
  · obtain ⟨schedule, groups, h⟩ := reschedule_frame
      { w with
        schedule := w.schedule.erase (toLex (deadline, key))
        groups := w.groups.insert key (g.settled time consumed w.spec.kind)
        bytes := release w.bytes (g.popped time consumed w.spec.kind) } key
    exact ⟨schedule, groups, _, h⟩

/-! ### The clock -/

theorem now_cases (w : BufferedWindow) (now : ℤ) :
    (∃ e, w.now now = (.error e, w)) ∨ ∃ t n, w.now now = (.ok t, { w with lastNow := n }) ∧ w.lastNow ≤ n := by
  unfold BufferedWindow.now
  split_ifs
  · exact .inr ⟨now, w.lastNow, rfl, le_rfl⟩
  · exact .inl ⟨_, rfl⟩
  · exact .inr ⟨_, _, rfl, le_max_left _ _⟩

theorem now_eq (hc : w.spec.kind.isCount = false) (hn : 0 ≤ now) :
    w.now now = (.ok (max w.lastNow now), { w with lastNow := max w.lastNow now }) := by
  simp [BufferedWindow.now, hc, not_lt.mpr hn]

theorem now_eq_ok (hc : w.spec.kind.isCount = false) (h : w.now now = (.ok t, w')) :
    0 ≤ now ∧ t = max w.lastNow now := by
  simp only [BufferedWindow.now, hc, Bool.false_eq_true, ↓reduceIte] at h
  split_ifs at h with hn
  · simp at h
  · simp only [Prod.mk.injEq, Except.ok.injEq] at h
    exact ⟨not_lt.mp hn, h.1.symm⟩

/-! ### Push -/

theorem timestamp_bounds (hc : w.eventTime.isSome) (h : w.timestamp row now = .ok t) : 0 ≤ t ∧ t ≤ i64Max := by
  obtain ⟨i, hi⟩ := Option.isSome_iff_exists.mp hc
  simp only [timestamp, hi] at h
  split at h
  · split_ifs at h with hv
    cases h
    exact ⟨hv, toInt_le_i64Max _⟩
  · split_ifs at h with hv
    cases h
    exact ⟨hv, toInt_le_i64Max _⟩
  · simp at h

/-- The tests of a push on a readable row, in order. None of them looks at the clock
field, only at the reading. -/
theorem push_eq {n : ℤ} (grants : Grants) (hw : row.values.length = w.input.fields.length)
    (hn : w.now now = (.ok t, { w with lastNow := n })) (hts : w.timestamp row t = .ok timestamp) :
    w.push grants row now = if w.isFuture timestamp t then (.ok .future, { w with lastNow := n })
      else if w.isLate timestamp then (.ok .late, { w with lastNow := n })
      else match w.admission grants row timestamp with
        | .error e => (.error e, { w with lastNow := n })
        | .ok adm => retain { w with lastNow := n } grants adm timestamp t := by
  have ht' : BufferedWindow.timestamp { w with lastNow := n } row t = .ok timestamp := hts
  simp only [push, hw, hn, ht', ne_eq, not_true_eq_false, ↓reduceIte]
  rfl

/-- A push either changes nothing but the clock and does not accept, or retains an
admitted event that is neither in the future nor late. -/
theorem push_cases (w : BufferedWindow) (grants : Grants) (row : Row) (now : ℤ) :
    (∃ r n, w.push grants row now = (r, { w with lastNow := n }) ∧ w.lastNow ≤ n ∧ ∀ out, r ≠ .ok (.accepted out)) ∨
      ∃ t n timestamp adm, w.now now = (.ok t, { w with lastNow := n }) ∧ w.lastNow ≤ n ∧
        row.values.length = w.input.fields.length ∧
        w.timestamp row t = .ok timestamp ∧ w.isFuture timestamp t = false ∧
        w.isLate timestamp = false ∧ w.admission grants row timestamp = .ok adm ∧
        w.push grants row now = retain { w with lastNow := n } grants adm timestamp t := by
  by_cases hw : row.values.length = w.input.fields.length
  swap
  · exact .inl ⟨_, w.lastNow, by rw [push, if_pos hw], le_rfl, by simp⟩
  rcases w.now_cases now with ⟨e, hno⟩ | ⟨t, n, hno, hn⟩
  · exact .inl ⟨.error e, w.lastNow, by simp [push, hw, hno], le_rfl, by simp⟩
  cases hts : w.timestamp row t with
  | error e =>
    have ht' : timestamp { w with lastNow := n } row t = .error e := hts
    exact .inl ⟨.error e, n, by simp [push, hw, hno, ht'], hn, by simp⟩
  | ok timestamp =>
    have hp := push_eq grants hw hno hts
    cases hf : w.isFuture timestamp t with
    | true => exact .inl ⟨_, n, by rw [hp, if_pos hf], hn, by simp⟩
    | false =>
      cases hl : w.isLate timestamp with
      | true => exact .inl ⟨.ok .late, n, by simp [hp, hf, hl], hn, by simp⟩
      | false =>
        cases ha : w.admission grants row timestamp with
        | error e => exact .inl ⟨.error e, n, by simp [hp, hf, hl, ha], hn, by simp⟩
        | ok adm =>
          exact .inr ⟨t, n, timestamp, adm, hno, hn, hw, hts, hf, hl, ha, by simp [hp, hf, hl, ha]⟩

def rowKey (w : BufferedWindow) (row : Row) : Bytes := encodeKeyValues (w.keyValues row)

/-- The group an admitted event goes to. -/
def groupFor (w : BufferedWindow) (row : Row) : Group :=
  (w.groups.get? (w.rowKey row)).getD
    { key := ⟨w.rowKey row, w.keyValues row, keyCredit (w.keyValues row)⟩
      events := .empty, sequence := 0, deadline := none }

/-- What an admission says: the endpoints fit, the group and the event are those of the
row, and the event's number is the next one of the group. -/
structure Admits (w : BufferedWindow) (row : Row) (timestamp : ℤ) (adm : Admission) : Prop where
  fits : w.endpointsFit timestamp = true
  group : adm.group = w.groupFor row
  fresh : adm.fresh = (w.groups.get? (w.rowKey row)).isNone
  sequence : adm.sequence = (w.groupFor row).sequence + 1
  values : w.evalInputs row = .ok adm.event.values
  pending : adm.event.pending = true
  credit : w.durable = true → adm.event.credit = eventCredit adm.event.values
  room : w.spec.kind.isCount = false → (w.groups.get? (w.rowKey row)).isSome →
    (w.groupFor row).events.size < w.spec.maxBufferedRows
  sequence_le : ((w.groupFor row).sequence : ℤ) + 1 ≤ i64Max

theorem keptCredit_eq_ok {resident credit : ℕ} {values : List Scalar}
    (h : w.keptCredit grants resident values = .ok credit) (hd : w.durable = true) :
    credit = eventCredit values := by
  unfold keptCredit at h
  dsimp only at h
  split_ifs at h with hg
  · obtain ⟨_, -, rfl⟩ := map_eq_ok.mp h
    rfl
  · simpa [eq_comm] using h

theorem event_eq_ok : (w.event grants row).Ensures fun e => w.evalInputs row = .ok e.values ∧ e.pending = true ∧
    (w.durable = true → e.credit = eventCredit e.values) :=
  .bind fun _ _ => .bind fun _ _ => .bind fun _ _ => .bind fun _ hv => .bind fun _ hc =>
    .ok ⟨hv, rfl, keptCredit_eq_ok hc⟩

theorem admission_eq_ok : (w.admission grants row timestamp).Ensures (w.Admits row timestamp) := by
  refine .bind fun _ hf => .bind fun candidate hk => .bind fun _ _ => .bind fun _ hs =>
    .bind fun _ hr => .bind fun event he => .ok ?_
  replace hk := after_check hk
  obtain rfl : candidate = ⟨w.rowKey row, w.keyValues row, keyCredit (w.keyValues row)⟩ := by
    simpa [pure, Except.pure, rowKey] using hk.symm
  obtain ⟨hv, hp, hcr⟩ := event_eq_ok he
  exact
    { fits := by simpa using refuseIf_eq_ok.mp hf
      group := rfl
      fresh := rfl
      sequence := rfl
      values := hv
      pending := hp
      credit := hcr
      room := fun hc hso => by
        have := fun hle => refuseIf_eq_ok.mp hr ⟨by simp [hc], hso, hle⟩
        exact not_le.mp this
      sequence_le := by
        have := not_lt.mp (refuseIf_eq_ok.mp hs)
        push_cast at this
        exact this }

/-! ### The schedule -/

/-- A well-formed operator: its specification passed validation, the schedule holds exactly the deadlines of the groups, each
deadline is the one its events call for, every group sits under its own key and holds an
event. -/
structure Wf (w : BufferedWindow) : Prop where
  valid : w.spec.validate = .ok ()
  scheduled : ∀ d k, w.schedule.get? (toLex (d, k)) = some () ↔ ∃ g, w.groups.get? k = some g ∧ g.deadline = some d
  deadline : ∀ k g, w.groups.get? k = some g → g.deadline = g.nextDeadline w.spec.kind
  key : ∀ k g, w.groups.get? k = some g → g.key.encoded = k
  encoded : ∀ k g, w.groups.get? k = some g → encodeKeyValues g.key.values = k
  width : ∀ k g, w.groups.get? k = some g → g.key.values.length = w.keys.length
  nonempty : ∀ k g, w.groups.get? k = some g → g.events.entries ≠ []

theorem Wf.congr (hw : w.Wf) (hc : w'.toBufferedConfig = w.toBufferedConfig) (hs : w'.schedule = w.schedule)
    (hg : w'.groups = w.groups) : w'.Wf := by
  obtain ⟨hv, hsc, hd, hk, he, hwi, hn⟩ := hw
  constructor <;> simpa only [hc, hs, hg]

def InPlace (w : BufferedWindow) (k : Bytes) (g : Group) : Prop :=
  g.key.encoded = k ∧ encodeKeyValues g.key.values = k ∧ g.key.values.length = w.keys.length ∧ g.events.entries ≠ []

theorem Wf.inPlace (hw : w.Wf) (hg : w.groups.get? k = some g) : w.InPlace k g :=
  ⟨hw.key k g hg, hw.encoded k g hg, hw.width k g hg, hw.nonempty k g hg⟩

theorem Wf.of_groups (hw : w.Wf) (hc : w'.toBufferedConfig = w.toBufferedConfig)
    (hs : ∀ d k, w'.schedule.get? (toLex (d, k)) = some () ↔ ∃ g, w'.groups.get? k = some g ∧ g.deadline = some d)
    (h : ∀ k g, w'.groups.get? k = some g → g.deadline = g.nextDeadline w.spec.kind ∧ w.InPlace k g) : w'.Wf := by
  refine ⟨by rw [hc]; exact hw.valid, hs, fun k g hg => ?_, fun k g hg => (h k g hg).2.1,
    fun k g hg => (h k g hg).2.2.1, fun k g hg => ?_, fun k g hg => (h k g hg).2.2.2.2⟩
  · rw [hc]
    exact (h k g hg).1
  · rw [hc]
    exact (h k g hg).2.2.2.1

/-- `s` schedules the keys other than `k` as `w` does, and nothing for `k`. -/
def SchedulesOthers (w : BufferedWindow) (k : Bytes) (s : SortedMap (ℤ ×ₗ Bytes) Unit) : Prop :=
  ∀ d k', s.get? (toLex (d, k')) = some () ↔ k' ≠ k ∧ w.schedule.get? (toLex (d, k')) = some ()

theorem schedulesOthers_erase (hw : w.Wf) {d : ℤ} (hg : w.groups.get? k = some g) (hd : g.deadline = some d) :
    w.SchedulesOthers k (w.schedule.erase (toLex (d, k))) := by
  intro d' k'
  rw [get?_erase]
  obtain rfl | hk := eq_or_ne k' k
  · simp only [ne_eq, not_true_eq_false, false_and, iff_false]
    split_ifs with heq
    · simp
    · intro hs
      obtain ⟨g', hg', hd'⟩ := (hw.scheduled d' k').mp hs
      obtain rfl : g = g' := some.inj (hg.symm.trans hg')
      obtain rfl : d = d' := some.inj (hd.symm.trans hd')
      exact heq rfl
  · have hne : toLex (d', k') ≠ toLex (d, k) := fun h => hk (congrArg (fun x => (ofLex x).2) h)
    simp [hne, hk]

theorem schedulesOthers_self (hw : w.Wf) (hn : ∀ g, w.groups.get? k = some g → g.deadline = none) :
    w.SchedulesOthers k w.schedule := by
  intro d k'
  refine ⟨fun hs => ⟨?_, hs⟩, fun h => h.2⟩
  rintro rfl
  obtain ⟨g, hg, hd⟩ := (hw.scheduled d k').mp hs
  simp [hn g hg] at hd

theorem schedulesOthers_unschedule (hw : w.Wf) (row : Row) : w.SchedulesOthers (w.rowKey row)
      (w.unschedule (w.rowKey row) (w.groupFor row).deadline).schedule := by
  unfold groupFor
  cases hg : w.groups.get? (w.rowKey row) with
  | none => exact schedulesOthers_self hw fun g h => by simp [hg] at h
  | some g =>
    simp only [getD_some]
    cases hd : g.deadline with
    | none =>
      refine schedulesOthers_self hw fun g' h => ?_
      obtain rfl : g = g' := some.inj (hg.symm.trans h)
      exact hd
    | some d => exact schedulesOthers_erase hw hg hd

theorem groups_reschedule (hg : w.groups.get? k = some g) :
    (w.reschedule k).groups = w.groups.insert k { g with deadline := g.nextDeadline w.spec.kind } := by
  unfold reschedule
  rw [hg]
  obtain ⟨schedule, h⟩ := w.unschedule_frame k g.deadline
  simp only [h]
  cases g.nextDeadline w.spec.kind <;> rfl

theorem schedule_reschedule (hg : w.groups.get? k = some g) (hd : g.deadline = none) :
    (w.reschedule k).schedule = match g.nextDeadline w.spec.kind with
      | some t => w.schedule.insert (toLex (t, k)) ()
      | none => w.schedule := by
  unfold reschedule
  rw [hg]
  simp only [hd, unschedule]
  cases g.nextDeadline w.spec.kind <;> rfl

theorem wf_reschedule (hw : w.Wf) (hc : w'.toBufferedConfig = w.toBufferedConfig)
    (hgr : w'.groups = w.groups.insert k g) (hs : w.SchedulesOthers k w'.schedule) (hd : g.deadline = none)
    (hp : w.InPlace k g) : (w'.reschedule k).Wf := by
  have hg : w'.groups.get? k = some g := by rw [hgr, get?_insert_self]
  have hc' : (w'.reschedule k).toBufferedConfig = w.toBufferedConfig := by
    obtain ⟨_, _, h⟩ := w'.reschedule_frame k
    rw [h, ← hc]
  have hgs : (w'.reschedule k).groups = w.groups.insert k { g with deadline := g.nextDeadline w.spec.kind } := by
    rw [groups_reschedule hg, hgr, insert_insert, hc]
  refine hw.of_groups hc' (fun d k' => ?_) fun k' g' h => ?_
  · rw [schedule_reschedule hg hd, hgs, get?_insert, hc]
    obtain rfl | hk := eq_or_ne k' k
    · have hn : w'.schedule.get? (toLex (d, k')) ≠ some () := fun h => ((hs d k').mp h).1 rfl
      cases hne : g.nextDeadline w.spec.kind with
      | none => simpa using hn
      | some t =>
        simp only [get?_insert, ↓reduceIte, some.injEq]
        by_cases hdt : d = t
        · simp [hdt]
        · have hn' : toLex (d, k') ≠ toLex (t, k') := fun h =>
            hdt (congrArg (fun x => (ofLex x).1) h)
          simpa [hn', Ne.symm hdt] using hn
    · rw [if_neg hk, ← hw.scheduled d k']
      have ho := hs d k'
      simp only [ne_eq, hk, not_false_eq_true, true_and] at ho
      cases g.nextDeadline w.spec.kind with
      | none => exact ho
      | some t =>
        have hn' : toLex (d, k') ≠ toLex (t, k) := fun h => hk (congrArg (fun x => (ofLex x).2) h)
        simpa [get?_insert, hn'] using ho
  · rw [hgs] at h
    obtain ⟨rfl, rfl⟩ | ⟨-, h⟩ := SortedMap.get?_insert_eq_some.mp h
    · exact ⟨rfl, hp⟩
    · exact ⟨hw.deadline k' g' h, hw.inPlace h⟩

theorem wf_erase (hw : w.Wf) (hc : w'.toBufferedConfig = w.toBufferedConfig) (hg : w'.groups = w.groups.erase k)
    (hs : w.SchedulesOthers k w'.schedule) : w'.Wf := by
  refine hw.of_groups hc (fun d k' => ?_) fun k' g' h => ?_
  · rw [hs d k', hw.scheduled d k', hg, get?_erase]
    by_cases hk : k' = k <;> simp [hk]
  · rw [hg] at h
    obtain ⟨-, h⟩ := SortedMap.get?_erase_eq_some.mp h
    exact ⟨hw.deadline k' g' h, hw.inPlace h⟩

/-! ### The changed group -/

/-- The group of a row with its event added, the trigger of an immediate row settled. -/
def retainedGroup (w : BufferedWindow) (row : Row) (timestamp : ℤ) (event : Event) : Group :=
  let sequence := (w.groupFor row).sequence + 1
  let time := if w.spec.kind.isCount then (sequence : ℤ) else timestamp
  (((w.groupFor row).added time sequence event).trimmed w.spec.kind).emittedNow timestamp sequence
    w.spec.kind

theorem groupFor_key (hw : w.Wf) (row : Row) :
    (w.groupFor row).key.encoded = w.rowKey row ∧ encodeKeyValues (w.groupFor row).key.values = w.rowKey row ∧
      (w.groupFor row).key.values.length = w.keys.length := by
  unfold groupFor
  cases hg : w.groups.get? (w.rowKey row) with
  | none => exact ⟨rfl, rfl, by simp [keyValues]⟩
  | some g => exact ⟨hw.key _ g hg, hw.encoded _ g hg, hw.width _ g hg⟩

theorem emittedNow_eq (g : Group) (time : ℤ) (sequence : ℕ) (kind : WindowKind) :
    g.emittedNow time sequence kind = g ∨ g.emittedNow time sequence kind =
      { g with events := g.events.modify (toLex (time, sequence)) fun e => { e with pending := false } } := by
  unfold emittedNow
  split
  · split_ifs
    · exact .inr rfl
    · exact .inl rfl
  · exact .inl rfl

theorem retainedGroup_eq {event : Event} (hc : w.spec.kind.isCount = false)
    (hi : w.immediate timestamp ((w.groupFor row).sequence + 1) = none) :
    w.retainedGroup row timestamp event = (w.groupFor row).added timestamp ((w.groupFor row).sequence + 1) event := by
  unfold immediate at hi
  unfold retainedGroup
  cases hk : w.spec.kind with
  | slidingProcessingTime size delay =>
    simp only [hk] at hi
    split_ifs at hi with hd
    simp [trimmed, excess, emittedNow, hd, isCount]
  | count size => simp [hk, isCount] at hc
  | slidingCount size step => simp [hk, isCount] at hc
  | _ => simp [trimmed, excess, emittedNow, isCount]

theorem mem_groupFor {e : EventEntry} (he : e ∈ (w.groupFor row).events.entries) :
    ∃ g, w.groups.get? (w.rowKey row) = some g ∧ e ∈ g.events.entries := by
  unfold groupFor at he
  cases hg : w.groups.get? (w.rowKey row) with
  | none => simp [hg] at he
  | some g =>
    rw [hg] at he
    exact ⟨g, rfl, he⟩

theorem excess_lt {spec : WindowSpec} (hv : spec.validate = .ok ()) (hne : g.events.entries ≠ []) :
    g.excess spec.kind < g.events.entries.length := by
  have hp : 0 < g.events.entries.length := List.length_pos_iff.mpr hne
  unfold excess
  split
  · rename_i size step hk
    have := WindowSpec.valid_slidingCount hv hk
    unfold SortedMap.size
    omega
  · exact hp

theorem retainedGroup_nonempty (hw : w.Wf) (row : Row) (timestamp : ℤ) (event : Event) :
    (w.retainedGroup row timestamp event).events.entries ≠ [] := by
  have ha : ∀ time sequence, ((w.groupFor row).added time sequence event).events.entries ≠ [] :=
    fun time sequence h => by
      have : (toLex (time, sequence), event) ∈
          ((w.groupFor row).added time sequence event).events.entries :=
        SortedMap.mem_entries_iff.mpr (get?_insert_self ..)
      simp [h] at this
  have ht : ∀ g : Group, g.events.entries ≠ [] → (g.trimmed w.spec.kind).events.entries ≠ [] := by
    intro g hne h
    have := excess_lt hw.valid hne
    simp only [trimmed, popN, List.drop_eq_nil_iff] at h
    omega
  unfold retainedGroup
  rcases emittedNow_eq (((w.groupFor row).added
    (if w.spec.kind.isCount then (((w.groupFor row).sequence + 1 : ℕ) : ℤ) else timestamp)
    ((w.groupFor row).sequence + 1) event).trimmed w.spec.kind) timestamp
    ((w.groupFor row).sequence + 1) w.spec.kind with h | h
  · rw [h]
    exact ht _ (ha _ _)
  · rw [h]
    simpa [SortedMap.modify] using ht _ (ha _ _)

theorem emittedNow_key (g : Group) (time : ℤ) (sequence : ℕ) (kind : WindowKind) :
    (g.emittedNow time sequence kind).key = g.key ∧ (g.emittedNow time sequence kind).deadline = g.deadline := by
  rcases emittedNow_eq g time sequence kind with h | h <;> rw [h] <;> exact ⟨rfl, rfl⟩

/-- **What an accepted event does to the operator**: its group becomes the one with the
event added, scheduled at its deadline, and the operator stays well formed. -/
theorem retained_spec (hw : w.Wf) (ha : w.Admits row timestamp adm) :
    (w.retained adm timestamp).Wf ∧ (w.retained adm timestamp).groups =
        w.groups.insert (w.rowKey row)
          { w.retainedGroup row timestamp adm.event with
            deadline := (w.retainedGroup row timestamp adm.event).nextDeadline w.spec.kind } := by
  obtain ⟨he, hke, hwi⟩ := groupFor_key hw row
  have hk : adm.group.key.encoded = w.rowKey row := by rw [ha.group, he]
  set w' := (w.insertEvent adm timestamp).settleImmediate adm.group.key.encoded timestamp
    adm.sequence with hw'
  obtain ⟨schedule, hun⟩ := w.unschedule_frame (w.rowKey row) (w.groupFor row).deadline
  have hg : w'.groups = w.groups.insert (w.rowKey row) (w.retainedGroup row timestamp adm.event) := by
    simp only [hw', settleImmediate, insertEvent, ha.group, he, ha.sequence, hun, modify_insert]
    rfl
  have hs : w'.schedule = (w.unschedule (w.rowKey row) (w.groupFor row).deadline).schedule := by
    simp only [hw', settleImmediate, insertEvent, ha.group, he]
  have hc : w'.toBufferedConfig = w.toBufferedConfig := by
    simp only [hw', settleImmediate, insertEvent, ha.group, he, hun]
  have hr : w.retained adm timestamp = w'.reschedule (w.rowKey row) := by
    rw [retained, ← hw', hk]
  have hgk := emittedNow_key (((w.groupFor row).added
    (if w.spec.kind.isCount then (((w.groupFor row).sequence + 1 : ℕ) : ℤ) else timestamp)
    ((w.groupFor row).sequence + 1) adm.event).trimmed w.spec.kind) timestamp
    ((w.groupFor row).sequence + 1) w.spec.kind
  rw [hr]
  refine ⟨wf_reschedule hw hc hg (hs ▸ schedulesOthers_unschedule hw row) hgk.2 ⟨?_, ?_, ?_,
    retainedGroup_nonempty hw row timestamp adm.event⟩, ?_⟩
  · exact (congrArg Key.encoded hgk.1).trans he
  · exact (congrArg (encodeKeyValues ∘ Key.values) hgk.1).trans hke
  · exact (congrArg (List.length ∘ Key.values) hgk.1).trans hwi
  · rw [groups_reschedule (g := w.retainedGroup row timestamp adm.event)
      (by rw [hg, get?_insert_self]), hg, insert_insert, hc]

theorem retained_frame (w : BufferedWindow) (adm : Admission) (timestamp : ℤ) :
    ∃ schedule groups bytes rows, w.retained adm timestamp =
      { w with schedule, groups, bytes, maxGroupRowsSeen := rows } := by
  obtain ⟨s, g, b, r, h⟩ := w.insertEvent_frame adm timestamp
  obtain ⟨s', g', h'⟩ := reschedule_frame
    ((w.insertEvent adm timestamp).settleImmediate adm.group.key.encoded timestamp adm.sequence)
    adm.group.key.encoded
  refine ⟨s', g', b, r, ?_⟩
  rw [retained, h', settleImmediate, h]

theorem observe_cases (w : BufferedWindow) (timestamp now : ℤ) (out : Option RowBatch) :
    ∃ r hub, w.observe timestamp now out = (r, { w with hub }) ∧ WatermarkHub.Step w.hub hub ∧
      (w.hub.Live → hub.Live) ∧ (r = .ok (.accepted out) ∨ ∃ e, r = .error e) := by
  unfold observe
  split_ifs
  · have hs := w.hub.step_observeEvent .single timestamp now
    have hl : w.hub.Live → (w.hub.observeEvent .single timestamp now).2.Live :=
      fun h => h.observeEvent .single timestamp now
    cases ho : w.hub.observeEvent .single timestamp now with
    | mk r hub =>
      rw [ho] at hs hl
      refine ⟨_, hub, rfl, hs, hl, ?_⟩
      cases r with
      | error e => exact .inr ⟨e, rfl⟩
      | ok _ => exact .inl rfl
  · exact ⟨_, w.hub, rfl, .same, id, .inl rfl⟩

theorem isCount_of_et (het : w.isEt = true) : w.spec.kind.isCount = false := by
  unfold isEt at het
  cases hk : w.spec.kind <;> simp_all [usesEventTime, isCount]

theorem Admits.clocked (h : w.Admits row timestamp adm) (n : ℤ) : Admits { w with lastNow := n } row timestamp adm :=
  { h with }

theorem immediate_of_et (het : w.isEt = true) (timestamp : ℤ) (sequence : ℕ) :
    w.immediate timestamp sequence = none := by
  unfold isEt at het
  unfold immediate
  cases hk : w.spec.kind <;> simp_all [usesEventTime]

theorem retain_of_no_immediate (h : w.immediate timestamp adm.sequence = none) :
    w.retain grants adm timestamp now = (w.retained adm timestamp).observe timestamp now none := by
  obtain ⟨_, _, _, _, hin⟩ := w.insertEvent_frame adm timestamp
  have hi : (w.insertEvent adm timestamp).immediate timestamp adm.sequence = none := by
    rw [hin]
    exact h
  simp [retain, immediateRow, hi]

/-! ### Draining -/

theorem fired_eq (g : Group) (consumed : Option (ℤ ×ₗ ℕ)) (kind : WindowKind) :
    ∃ events, g.fired consumed kind = { g with events } := by
  unfold fired
  split
  · cases consumed with
    | none => exact ⟨g.events, rfl⟩
    | some k => exact ⟨_, rfl⟩
  · cases consumed with
    | none => exact ⟨g.events, rfl⟩
    | some k => exact ⟨_, rfl⟩
  · exact ⟨g.events, rfl⟩

/-- **What a drain step does to the operator**: the due group is settled, and removed if
nothing is left of it, and the operator stays well formed. -/
theorem settle_spec (hw : w.Wf) {key : Bytes} {deadline : ℤ} (hg : w.groups.get? key = some g)
    (hd : g.deadline = some deadline) (time : ℤ) (consumed : Option (ℤ ×ₗ ℕ)) :
    (w.settle key g deadline time consumed).Wf ∧ (w.settle key g deadline time consumed).groups =
        if (g.settled time consumed w.spec.kind).events.entries = [] then w.groups.erase key
        else w.groups.insert key { g.settled time consumed w.spec.kind with
          deadline := (g.settled time consumed w.spec.kind).nextDeadline w.spec.kind } := by
  have ho := schedulesOthers_erase hw hg hd
  obtain ⟨events, hf⟩ := fired_eq g consumed w.spec.kind
  have hk : (g.settled time consumed w.spec.kind).key = g.key := by
    simp only [settled, hf]
  unfold settle
  simp only [size, List.length_eq_zero_iff]
  split_ifs with he
  · exact ⟨wf_erase hw rfl rfl ho, rfl⟩
  · set w' : BufferedWindow := { w with
      schedule := w.schedule.erase (toLex (deadline, key))
      groups := w.groups.insert key (g.settled time consumed w.spec.kind)
      bytes := release w.bytes (g.popped time consumed w.spec.kind) }
    obtain ⟨hke, hen, hwi, -⟩ := hw.inPlace hg
    refine ⟨wf_reschedule (k := key) hw rfl rfl ho rfl ?_, ?_⟩
    · exact ⟨hk ▸ hke, hk ▸ hen, hk ▸ hwi, he⟩
    · rw [groups_reschedule (w := w') (get?_insert_self ..)]
      exact insert_insert ..

theorem drainTime_cases (w : BufferedWindow) (time : ℤ) :
    (∃ e, (if w.isPt then w.now time else (.ok time, w)) = (.error e, w)) ∨
      ∃ t n, (if w.isPt then w.now time else (.ok time, w)) = (.ok t, { w with lastNow := n }) ∧
        w.lastNow ≤ n ∧ time ≤ t := by
  split_ifs
  · unfold now
    split_ifs
    · exact .inr ⟨time, w.lastNow, rfl, le_rfl, le_rfl⟩
    · exact .inl ⟨_, rfl⟩
    · exact .inr ⟨_, _, rfl, le_max_left _ _, le_max_right _ _⟩
  · exact .inr ⟨time, w.lastNow, rfl, le_rfl, le_rfl⟩

/-- A drain step either changes nothing but the clock and emits nothing, because it fails or
nothing is due, or settles the group with the earliest deadline, which is due, emitting
what that group has due. -/
theorem takeDue_cases (hw : w.Wf) (grants : Grants) (time : ℤ) :
    (∃ r n, w.takeDue grants time = (r, { w with lastNow := n }) ∧ w.lastNow ≤ n ∧
        ((∃ e, r = .error e) ∨ r = .ok none ∧ w.due time = false)) ∨
      ∃ t n deadline key g, (if w.isPt then w.now time else (.ok time, w)) =
          (.ok t, { w with lastNow := n }) ∧ w.lastNow ≤ n ∧ deadline ≤ t ∧
        w.groups.get? key = some g ∧ g.deadline = some deadline ∧
        ((g.dueAt t w.spec.kind = none ∧
            w.takeDue grants time = (.ok none, settle { w with lastNow := n } key g deadline t none)) ∨
          ∃ start stop consumed out, g.dueAt t w.spec.kind = some (start, stop, consumed) ∧
            w.aggregate grants g start stop start stop = .ok out ∧
            w.takeDue grants time =
              (.ok (some out), settle { w with lastNow := n } key g deadline t (some consumed))) := by
  rcases w.drainTime_cases time with ⟨e, hc⟩ | ⟨t, n, hc, hn, ht⟩
  · exact .inl ⟨.error e, w.lastNow, by rw [takeDue, hc], le_rfl, .inl ⟨e, rfl⟩⟩
  cases hf : w.schedule.first? with
  | none =>
    exact .inl ⟨.ok none, n, by simp [takeDue, hc, hf], hn, .inr ⟨rfl, by simp [due, hf]⟩⟩
  | some entry =>
    obtain ⟨dk, _⟩ := entry
    obtain ⟨deadline, key, rfl⟩ : ∃ d k, dk = toLex (d, k) := ⟨(ofLex dk).1, (ofLex dk).2, rfl⟩
    by_cases hdu : deadline > t
    · refine .inl ⟨.ok none, n, by simp [takeDue, hc, hf, hdu], hn, .inr ⟨rfl, ?_⟩⟩
      rw [due, hf, any_some]
      exact decide_eq_false (not_le.mpr (ht.trans_lt hdu))
    have hs : w.schedule.get? (toLex (deadline, key)) = some () :=
      SortedMap.mem_entries_iff.mp (List.mem_of_mem_head? hf)
    obtain ⟨g, hg, hd⟩ := (hw.scheduled deadline key).mp hs
    cases hat : g.dueAt t w.spec.kind with
    | none =>
      exact .inr ⟨t, n, deadline, key, g, hc, hn, not_lt.mp hdu, hg, hd,
        .inl ⟨hat, by simp [takeDue, hc, hf, hdu, hg, hat]⟩⟩
    | some due =>
      obtain ⟨start, stop, consumed⟩ := due
      cases ha : w.aggregate grants g start stop start stop with
      | error e =>
        have ha' : aggregate { w with lastNow := n } grants g start stop start stop = .error e := ha
        exact .inl ⟨.error e, n, by simp [takeDue, hc, hf, hdu, hg, hat, ha'], hn, .inl ⟨e, rfl⟩⟩
      | ok out =>
        have ha' : aggregate { w with lastNow := n } grants g start stop start stop = .ok out := ha
        exact .inr ⟨t, n, deadline, key, g, hc, hn, not_lt.mp hdu, hg, hd,
          .inr ⟨start, stop, consumed, out, hat, ha, by simp [takeDue, hc, hf, hdu, hg, hat, ha']⟩⟩

/-! ### Results -/

theorem aggregate_eq_ok {start stop low high : ℤ} : (w.aggregate grants g start stop low high).Ensures fun out =>
    ∃ empty accs, w.newAccumulators = .ok empty ∧ Aggregated empty (w.inputsBetween g low high) accs ∧
      out = { schema := w.output, rows := [resultRow g.key.values start stop accs] } :=
  .bind fun _ _ => .bind fun empty he => .bind fun accs ha _ h =>
    ⟨empty, accs, he, aggregated_foldInputs ha, finishRowMetered_eq_ok h⟩

/-! ### Creation -/

/-- A new operator: well formed, without groups, its single input registered and without
a watermark. -/
structure Created (spec : WindowSpec) (external : Bool) (w : BufferedWindow) : Prop where
  wf : w.Wf
  spec_eq : w.spec = spec
  buffered : spec.kind.isBuffered = true
  groups : w.groups = .empty
  schedule : w.schedule = .empty
  hub : w.hub = { inputs := SortedMap.empty.insert .single .new, lastEffective := none
                  maxInputs := defaultMaxWatermarkInputs, binding := spec.binding }
  external_eq : w.external = external
  eventTime : w.eventTime.isSome = spec.eventTimeField.isSome
  keys : w.keys.length = spec.keys.length
  expressions : w.expressions.length = spec.aggs.length
  lastNow : w.lastNow = 0
  bytes : w.bytes = 0
  durable : w.durable = false

theorem wf_of_empty (hv : w.spec.validate = .ok ()) (hg : w.groups = .empty) (hs : w.schedule = .empty) :
    w.Wf := by
  constructor <;> simp [hv, hg, hs]

theorem new_eq_ok {spec : WindowSpec} {input : Schema}
    {budgetKeys budgetTimers maxKeys maxTimers : ℕ} {external : Bool} :
    (BufferedWindow.new spec input budgetKeys budgetTimers maxKeys maxTimers external).Ensures fun w =>
      Created spec external w ∧ w.input = input := by
  refine .bind fun _ hv => .bind fun _ hbu => .bind fun keys hk => .bind fun eventTime het =>
    .bind fun _ _ => .bind fun expressions he => .bind fun hub hh => ?_
  have hub_eq := WatermarkHub.ofBinding_ok hh
  refine .bind fun _ _ => .bind fun _ _ => .ok ⟨?_, rfl⟩
  exact
    { wf := wf_of_empty hv rfl rfl
      spec_eq := rfl
      buffered := by simpa using refuseIf_eq_ok.mp hbu
      groups := rfl
      schedule := rfl
      hub := by rw [hub_eq]; rfl
      external_eq := rfl
      eventTime := by
        cases hf : spec.eventTimeField with
        | none =>
          simp only [eventTimeIndex, hf] at het
          rw [← Except.ok.inj het]
          rfl
        | some k =>
          simp only [eventTimeIndex, hf] at het
          cases hi : input.indexOfName k with
          | none => simp [hi] at het
          | some i =>
            simp only [hi] at het
            rw [← Except.ok.inj het]
            rfl
      keys := (Result.forall₂_of_mapM hk).length_eq.symm
      expressions := (Result.forall₂_of_mapM he).length_eq.symm
      lastNow := rfl
      bytes := rfl
      durable := rfl }

end BufferedWindow

end Sparrow.Runtime
