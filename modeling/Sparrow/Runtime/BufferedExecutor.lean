import Mathlib.Algebra.Order.BigOperators.Group.List
import Sparrow.Library.TimeOrder
import Sparrow.Runtime.BufferedSession

/-!
# The executor of a buffered window

The task that drives a buffered window: every row is pushed with a clock reading;
a processing-time window is drained at that reading before, an event-time window is
drained at its watermark after every row and every control. When the input closes,
an event-time window is drained to the end of time, and a processing-time window
sleeps from deadline to deadline until none is left.

The source's loops run until nothing is due. Here they take a bound on their number of
steps, which `work` provides.
-/

namespace Sparrow.Runtime

open Library Model Plan List Option SortedMap Runtime.Group

/-- A row taken into a window: its key, its time, and its evaluated aggregate inputs. -/
structure Arrival where
  key : Bytes
  time : ℤ
  values : List Scalar

/-- What the executor makes of its input, in order. -/
inductive Seen where
  | accepted (a : Arrival)
  | late (row : Row)
  | future (row : Row)
  | rows (out : RowBatch)
  | watermark (time : ℤ)

/-- The state of the task: the operator, and the last watermark sent. -/
structure Executor where
  op : BufferedWindow
  /-- `last_watermark`. -/
  last : Option ℤ

variable {w w' : BufferedWindow} {time : ℤ} {grants : ℕ → Grants} {e : EventEntry} {rows : List RowBatch}
  {out : Option RowBatch}

namespace BufferedWindow

/-! ### The loops -/

/-- What is left to do for an event: it is evicted, and emitted before if it is pending. -/
def eventWork (e : EventEntry) : ℕ := if e.2.pending then 2 else 1

def groupWork (g : Group) : ℕ := (g.events.entries.map eventWork).sum

variable (w)

def work : ℕ := (w.groups.entries.map fun e => groupWork e.2).sum

/-- `while due(time) { take_due(time) }`, for at most `n` rounds. -/
def drainFor (grants : ℕ → Grants) (time : ℤ) : ℕ → BufferedWindow → Result (List RowBatch × BufferedWindow)
  | 0, w => .ok ([], w)
  | n + 1, w =>
    if w.due time then
      match w.takeDue (grants n) time with
      | (.error e, _) => .error e
      | (.ok out, w) => (drainFor grants time n w).map fun (rows, w) => (out.toList ++ rows, w)
    else .ok ([], w)

/-- `drain`. -/
def drain (grants : ℕ → Grants) (time : ℤ) : Result (List RowBatch × BufferedWindow) :=
  drainFor grants time w.work w

/-- The arrival a row makes at a clock reading. -/
def arrival (row : Row) (now : ℤ) : Result Arrival := do
  let time ← w.timestamp row now
  let values ← w.evalInputs row
  return { key := encodeKeyValues (w.keyValues row), time, values }

def ingested (row : Row) (now : ℤ) : Ingest → Result (List Seen)
  | .accepted out => (w.arrival row now).map fun a => .accepted a :: (out.toList.map .rows)
  | .late => .ok [.late row]
  | .future => .ok [.future row]

variable {w}

/-! ### Every step does some of the work -/

theorem sum_dropWhile_le (f : EventEntry → ℕ) (p : EventEntry → Bool) (l : List EventEntry) :
    ((l.dropWhile p).map f).sum ≤ (l.map f).sum :=
  ((dropWhile_sublist p).map f).sum_le_sum fun _ _ => Nat.zero_le _

theorem groupWork_popWhile (g : Group) (p : EventEntry → Bool) :
    groupWork { g with events := g.events.popWhile p } ≤ groupWork g ∧
      ∀ e, g.events.first? = some e → p e = true →
        groupWork { g with events := g.events.popWhile p } < groupWork g := by
  refine ⟨sum_dropWhile_le _ _ _, fun e he hp => ?_⟩
  obtain ⟨rest, hr⟩ : ∃ rest, g.events.entries = e :: rest := by
    cases hl : g.events.entries with
    | nil => simp [first?, hl] at he
    | cons a rest =>
      obtain rfl : a = e := by simpa [first?, hl] using he
      exact ⟨rest, rfl⟩
  have hle := sum_dropWhile_le eventWork p rest
  have hpo : 0 < eventWork e := by unfold eventWork; split_ifs <;> omega
  simp only [groupWork, entries_popWhile, hr, dropWhile_cons_of_pos hp, map_cons, sum_cons]
  omega

variable {g : Group}

theorem groupWork_fire (he : g.firstPending = some e) :
    groupWork { g with events := g.events.modify e.1 fun e => { e with pending := false } } <
      groupWork g := by
  have hm : e ∈ g.events.entries := mem_of_find?_eq_some he
  have hp : e.2.pending = true := by simpa using find?_some he
  simp only [groupWork, SortedMap.modify, List.map_map]
  refine List.sum_lt_sum _ _ (fun a _ => ?_) ⟨e, hm, ?_⟩
  · simp only [Function.comp, eventWork]
    split_ifs <;> simp_all
  · simp [eventWork, hp]

section Settled

variable {g : Group} {kind : WindowKind} {t d : ℤ}

theorem settled_work_sliding {size delay : Int64} (hk : kind.Slides size delay)
    (hd : g.nextDeadline kind = some d) (hdt : d ≤ t) (hma : ∀ e ∈ g.events.entries, timeOf e ≤ i64Max) :
    groupWork (g.settled t ((g.dueAt t kind).map (·.2.2)) kind) < groupWork g := by
  have hn := g.nextDeadline_slides hk
  have hdu := g.dueAt_slides t hk
  cases hf : g.firstPending with
  | some e =>
    -- the first pending trigger is due, and is emitted
    simp only [hf] at hn hdu
    obtain rfl : timeOf e + delay + 1 = d := some.inj (hn.symm.trans hd)
    have hfi : g.fired (some e.1) kind =
        { g with events := g.events.modify e.1 fun e => { e with pending := false } } := by
      rcases hk with rfl | rfl <;> rfl
    rw [hdu, if_pos hdt, map_some, settled, hfi]
    exact (groupWork_popWhile _ _).1.trans_lt (groupWork_fire hf)
  | none =>
    -- nothing is pending, so the oldest event has expired, and is popped
    simp only [hf] at hn hdu
    rw [hdu, map_none]
    cases hh : g.events.first? with
    | none => simp [hh, hd] at hn
    | some e =>
      have hm : e ∈ g.events.entries := mem_of_mem_head? hh
      obtain rfl : timeOf e + size = d := by simpa [hh, hd, eq_comm] using hn
      have hfi : g.fired none kind = g := by
        rcases hk with rfl | rfl <;> rfl
      have hno : e.2.pending = false := by
        have := List.find?_eq_none.mp hf e hm
        simpa using this
      have hc : timeOf e ≤ g.cutoff t size := by
        have hle := hma e hm
        simp only [cutoff, hf, map_none, getD_none, satSubI, clampI64]
        omega
      have hs : spent { g with deadline := none } t none kind e = true := by
        have : spent { g with deadline := none } t none kind e =
            (decide (timeOf e ≤ g.cutoff t size) && !e.2.pending) := by
          rcases hk with rfl | rfl <;> simp [spent] <;> rfl
        simp [this, hc, hno]
      rw [settled, hfi]
      exact (groupWork_popWhile { g with deadline := none } _).2 e hh hs

theorem settled_work_session {gap span : Int64} (hk : kind.IsSession gap span)
    (hg : 0 < (gap : ℤ)) (hs : 0 < (span : ℤ)) (hne : g.events.entries ≠ []) :
    groupWork (g.settled t ((g.dueAt t kind).map (·.2.2)) kind) < groupWork g := by
  obtain ⟨f, rest, he⟩ := exists_cons_of_ne_nil hne
  have hse := session_eq hg hs he
  have hd : g.dueAt t kind = some (timeOf f, (Sessions.first timeOf gap span f rest).2.1,
      toLex ((Sessions.first timeOf gap span f rest).2.1, 0)) := by
    rcases hk with rfl | rfl <;> simp [dueAt, hse]
  have hf : ∀ c, g.fired c kind = g := by
    rcases hk with rfl | rfl <;> intro c <;> rfl
  have hsp : spent { g with deadline := none } t
      (some (toLex ((Sessions.first timeOf gap span f rest).2.1, 0))) kind f = true := by
    have := session_stop_gt hg hs he
    rcases hk with rfl | rfl <;> exact decide_eq_true this
  rw [hd, map_some, settled, hf]
  refine (groupWork_popWhile { g with deadline := none } _).2 f ?_ hsp
  simp [first?, he]

end Settled

/-- Retained events are where their kind allows, and numbered by their arrival. -/
structure Ranged (w : BufferedWindow) : Prop where
  fits : ∀ k g, w.groups.get? k = some g → ∀ e ∈ g.events.entries, 0 ≤ timeOf e ∧ w.endpointsFit (timeOf e) = true
  numbered : ∀ k g, w.groups.get? k = some g → ∀ e ∈ g.events.entries, seqOf e ≤ g.sequence

variable {kind : WindowKind}

theorem kind_of_nextDeadline {d : ℤ} (h : g.nextDeadline kind = some d) :
    (∃ size delay, kind.Slides size delay) ∨ ∃ gap span, kind.IsSession gap span := by
  cases kind with
  | slidingEventTime size delay => exact .inl ⟨size, delay, .inl rfl⟩
  | slidingProcessingTime size delay => exact .inl ⟨size, delay, .inr rfl⟩
  | sessionEventTime gap span => exact .inr ⟨gap, span, .inl rfl⟩
  | sessionProcessingTime gap span => exact .inr ⟨gap, span, .inr rfl⟩
  | _ => simp [nextDeadline] at h

theorem Ranged.sliding (hr : w.Ranged) {size delay : Int64} (hk : w.spec.kind.Slides size delay)
    {k : Bytes} (hg : w.groups.get? k = some g) (he : e ∈ g.events.entries) :
    0 ≤ timeOf e ∧ timeOf e + delay + 1 ≤ i64Max ∧ timeOf e + size ≤ i64Max := by
  obtain ⟨h0, hf⟩ := hr.fits k g hg e he
  rcases hk with hk | hk <;>
    simp only [endpointsFit, hk, Bool.and_eq_true, fitsI64_iff] at hf <;>
    omega

/-- **A drain step that succeeds with something due** settles the group with the earliest
deadline, and emits the aggregate of what that group has due. -/
theorem takeDue_ok (hw : w.Wf) {grants : Grants} (hdu : w.due time = true) (h : w.takeDue grants time = (.ok out, w')) :
    ∃ t n deadline key g, (if w.isPt then w.now time else (.ok time, w)) =
        (.ok t, { w with lastNow := n }) ∧ w.lastNow ≤ n ∧ deadline ≤ t ∧
      w.groups.get? key = some g ∧ g.deadline = some deadline ∧
      w' = settle { w with lastNow := n } key g deadline t ((g.dueAt t w.spec.kind).map (·.2.2)) ∧
      ((g.dueAt t w.spec.kind = none ∧ out = none) ∨
        ∃ start stop consumed b, g.dueAt t w.spec.kind = some (start, stop, consumed) ∧
          out = some b ∧ w.aggregate grants g start stop start stop = .ok b) := by
  rcases takeDue_cases hw grants time with ⟨r, n, ht, -, hr⟩ |
      ⟨t, n, deadline, key, g, hc, hn, hle, hg, hd, ht⟩
  · obtain ⟨rfl, -⟩ : r = .ok out ∧ _ = w' := Prod.mk.inj (ht.symm.trans h)
    rcases hr with ⟨e, he⟩ | ⟨-, hnot⟩
    · simp at he
    · simp [hdu] at hnot
  · refine ⟨t, n, deadline, key, g, hc, hn, hle, hg, hd, ?_⟩
    rcases ht with ⟨hno, ht⟩ | ⟨start, stop, consumed, b, hs, ha, ht⟩
    · obtain ⟨ho, rfl⟩ := Prod.mk.inj (h.symm.trans ht)
      rw [hno]
      exact ⟨rfl, .inl ⟨rfl, Except.ok.inj ho⟩⟩
    · obtain ⟨ho, rfl⟩ := Prod.mk.inj (h.symm.trans ht)
      rw [hs]
      exact ⟨rfl, .inr ⟨start, stop, consumed, b, rfl, Except.ok.inj ho, ha⟩⟩

/-- **A drain step on an operator with something due does some of the work left.** -/
theorem work_lt_of_takeDue (hw : w.Wf) (hr : w.Ranged) {grants : Grants} (hdu : w.due time = true)
    (h : w.takeDue grants time = (.ok out, w')) : w'.work < w.work := by
  obtain ⟨t, n, deadline, key, g, -, -, hle, hg, hd, rfl, -⟩ := takeDue_ok hw hdu h
  have hn : g.nextDeadline w.spec.kind = some deadline := (hw.deadline key g hg).symm.trans hd
  set settled := g.settled t ((g.dueAt t w.spec.kind).map (·.2.2)) w.spec.kind with hs
  have hlt : groupWork settled < groupWork g := by
    rcases kind_of_nextDeadline hn with ⟨size, delay, hk⟩ | ⟨gap, span, hk⟩
    · refine settled_work_sliding hk hn hle fun e he => ?_
      have := hr.sliding hk hg he
      have := WindowSpec.valid_sliding hw.valid hk
      omega
    · obtain ⟨hga, hsp⟩ := WindowSpec.valid_session hw.valid hk
      exact settled_work_session hk hga hsp (hw.nonempty key g hg)
  have hspe := (settle_spec (w := { w with lastNow := n }) (hw.congr rfl rfl rfl) hg hd t
    ((g.dueAt t w.spec.kind).map (·.2.2))).2
  rw [work, hspe]
  dsimp only
  rw [← hs]
  split_ifs with hem
  · have := sum_erase hg fun e => groupWork e.2
    dsimp only at this
    unfold work
    omega
  · have := sum_insert hg { settled with deadline := settled.nextDeadline w.spec.kind }
      fun e => groupWork e.2
    have hwo : groupWork { settled with deadline := settled.nextDeadline w.spec.kind } = groupWork settled := rfl
    dsimp only at this
    unfold work
    omega

theorem work_pos_of_due (hw : w.Wf) (hd : w.due time = true) : 0 < w.work := by
  obtain ⟨entry, hf, -⟩ := (any_eq_true _ _).mp hd
  obtain ⟨g, hg, -⟩ := (hw.scheduled (ofLex entry.1).1 (ofLex entry.1).2).mp
    (SortedMap.mem_entries_iff.mp (mem_of_mem_head? hf))
  obtain ⟨f, rest, he⟩ := exists_cons_of_ne_nil (hw.nonempty _ g hg)
  have hp : 0 < groupWork g := by
    simp only [groupWork, he, map_cons, sum_cons, eventWork]
    split_ifs <;> omega
  have := sum_erase hg fun e => groupWork e.2
  dsimp only at this
  unfold work
  omega

/-! ### Drains -/

/-- The drained operator keeps what one step keeps. -/
structure Kept (w w' : BufferedWindow) : Prop where
  wf : w'.Wf
  ranged : w'.Ranged
  config : w'.toBufferedConfig = w.toBufferedConfig
  hub : w'.hub = w.hub
  lastNow : w.lastNow ≤ w'.lastNow

variable {consumed : Option (ℤ ×ₗ ℕ)}

theorem mem_fired
    (he : e ∈ (g.fired consumed kind).events.entries) : ∃ e' ∈ g.events.entries, e.1 = e'.1 := by
  have hm : ∀ k, e ∈ (g.events.modify k fun e => { e with pending := false }).entries →
      ∃ e' ∈ g.events.entries, e.1 = e'.1 := by
    intro k h
    obtain ⟨e', he', rfl⟩ := List.mem_map.mp h
    exact ⟨e', he', by split_ifs <;> rfl⟩
  unfold fired at he
  split at he
  · cases consumed with
    | none => exact ⟨e, he, rfl⟩
    | some k => exact hm k he
  · cases consumed with
    | none => exact ⟨e, he, rfl⟩
    | some k => exact hm k he
  · exact ⟨e, he, rfl⟩

theorem mem_settled {t : ℤ} (he : e ∈ (g.settled t consumed kind).events.entries) :
    ∃ e' ∈ g.events.entries, e.1 = e'.1 :=
  mem_fired ((dropWhile_sublist _).subset he)

theorem takeDue_kept (hw : w.Wf) (hr : w.Ranged) {grants : Grants} (hdu : w.due time = true)
    (h : w.takeDue grants time = (.ok out, w')) : Kept w w' := by
  obtain ⟨t, n, deadline, key, g, -, hn, -, hg, hd, rfl, -⟩ := takeDue_ok hw hdu h
  set consumed := (g.dueAt t w.spec.kind).map (·.2.2)
  have hs := settle_spec (w := { w with lastNow := n }) (hw.congr rfl rfl rfl) hg hd t consumed
  obtain ⟨_, _, _, hf⟩ := settle_frame { w with lastNow := n } key g deadline t consumed
  -- a group left is one of before, or the settled one
  have hc : ∀ k g', (settle { w with lastNow := n } key g deadline t consumed).groups.get? k = some g' →
      w.groups.get? k = some g' ∨ (k = key ∧ g'.sequence = g.sequence ∧
        ∀ e ∈ g'.events.entries, e ∈ (g.settled t consumed w.spec.kind).events.entries) := by
    intro k g' hg'
    rw [hs.2] at hg'
    split_ifs at hg' with hem
    · exact .inl (SortedMap.get?_erase_eq_some.mp hg').2
    · obtain ⟨hk, rfl⟩ | ⟨-, hg'⟩ := SortedMap.get?_insert_eq_some.mp hg'
      · obtain ⟨events, hfi⟩ := fired_eq g consumed w.spec.kind
        refine .inr ⟨hk, ?_, fun e he => he⟩
        simp only [settled, hfi]
      · exact .inl hg'
  refine ⟨hs.1, ⟨fun k g' hg' e he => ?_, fun k g' hg' e he => ?_⟩, by rw [hf],
    by rw [hf], by rw [hf]; exact hn⟩
  · have hfit : ∀ e, e ∈ g'.events.entries → 0 ≤ timeOf e ∧ w.endpointsFit (timeOf e) = true := by
      intro e he
      rcases hc k g' hg' with hold | ⟨-, -, hm⟩
      · exact hr.fits k g' hold e he
      · obtain ⟨e', he', heq⟩ := mem_settled (hm e he)
        have := hr.fits key g hg e' he'
        rwa [timeOf, heq]
    rw [hf]
    exact hfit e he
  · rcases hc k g' hg' with hold | ⟨-, hse, hm⟩
    · exact hr.numbered k g' hold e he
    · obtain ⟨e', he', heq⟩ := mem_settled (hm e he)
      rw [hse, seqOf, heq]
      exact hr.numbered key g hg e' he'

theorem drainFor_succ {n : ℕ} (h : drainFor grants time (n + 1) w = .ok (rows, w')) :
    (w.due time = false ∧ rows = [] ∧ w' = w) ∨
      (w.due time = true ∧ ∃ out w₁ more, w.takeDue (grants n) time = (.ok out, w₁) ∧
        drainFor grants time n w₁ = .ok (more, w') ∧ rows = out.toList ++ more) := by
  simp only [drainFor] at h
  split_ifs at h with hd
  · refine .inr ⟨hd, ?_⟩
    rcases ht : w.takeDue (grants n) time with ⟨_ | out, w₁⟩ <;> rw [ht] at h
    · simp at h
    · obtain ⟨⟨more, w₂⟩, hr, ⟨⟩⟩ := map_eq_ok.mp h
      exact ⟨out, w₁, more, rfl, hr, rfl⟩
  · obtain ⟨rfl, rfl⟩ : [] = rows ∧ w = w' := by simpa using h
    exact .inl ⟨by simpa using hd, rfl, rfl⟩

/-- **Induction over a drain.** What every step at the drain's time keeps, the drain keeps. -/
theorem drain_induction {I : List RowBatch → BufferedWindow → Prop}
    (hs : ∀ seen w n out w', I seen w → w.due time = true →
      w.takeDue (grants n) time = (.ok out, w') → I (seen ++ out.toList) w')
    (before : List RowBatch) (hI : I before w) (h : w.drain grants time = .ok (rows, w')) : I (before ++ rows) w' := by
  unfold drain at h
  generalize w.work = n at h
  induction n generalizing before w rows with
  | zero =>
    obtain ⟨rfl, rfl⟩ : [] = rows ∧ w = w' := by simpa [drainFor] using h
    simpa using hI
  | succ n ih =>
    rcases drainFor_succ h with ⟨-, rfl, rfl⟩ | ⟨hd, out, w₁, more, ht, hr, rfl⟩
    · simpa using hI
    · rw [← append_assoc]
      exact ih (before ++ out.toList) (hs before w n out w₁ hI hd ht) hr

/-- **A drain that ends without error leaves nothing due**: the rounds it is given suffice. -/
theorem drain_not_due (hw : w.Wf) (hr : w.Ranged) (h : w.drain grants time = .ok (rows, w')) : w'.due time = false := by
  have hro : ∀ n w rows, w.Wf → w.Ranged → w.work ≤ n →
      drainFor grants time n w = .ok (rows, w') → w'.due time = false := by
    intro n
    induction n with
    | zero =>
      intro w rows hw _ hn h
      obtain ⟨-, rfl⟩ : [] = rows ∧ w = w' := by simpa [drainFor] using h
      by_contra hd
      have := work_pos_of_due hw (by simpa using hd)
      omega
    | succ n ih =>
      intro w rows hw hr hn h
      rcases drainFor_succ h with ⟨hd, -, rfl⟩ | ⟨hd, out, w₁, more, ht, hre, -⟩
      · exact hd
      · have hk := takeDue_kept hw hr hd ht
        have hlt := work_lt_of_takeDue hw hr hd ht
        exact ih w₁ more hk.wf hk.ranged (by omega) hre
  exact hro w.work w rows hw hr le_rfl h

end BufferedWindow

namespace Executor

/-- What the task receives. -/
inductive Input where
  | row (push : Grants) (drain : ℕ → Grants) (row : Row) (clock : ℤ)
  | watermark (drain : ℕ → Grants) (input : InputId) (time : ℤ)
  | activity (drain : ℕ → Grants) (input : InputId) (active : Bool)
  | tick (drain : ℕ → Grants) (clock : ℤ)

def Input.Steady : Input → Prop
  | .activity .. => False
  | _ => True

/-- `progress`: drain at the watermark, and send it if it is a new one. -/
def progress (x : Executor) (grants : ℕ → Grants) : Result (List Seen × Executor) :=
  match x.op.progress with
  | none => .ok ([], x)
  | some wm => do
    let (rows, op) ← x.op.drain grants wm
    if x.last.all (· < wm) then
      return (rows.map .rows ++ [.watermark wm], { op, last := some wm })
    else return (rows.map .rows, { x with op })

variable (x : Executor)

/-- Read the clock; a processing-time window is drained at the reading. -/
def clocked (grants : ℕ → Grants) (clock : ℤ) : Result (ℤ × List Seen × Executor) :=
  match x.op.now clock with
  | (.error e, _) => .error e
  | (.ok now, op) =>
    if op.isPt then
      (op.drain grants now).map fun (rows, op) => (now, rows.map .rows, { x with op })
    else .ok (now, [], { x with op })

def pushed (grants : Grants) (row : Row) (now : ℤ) : Result (List Seen × Executor) :=
  match x.op.push grants row now with
  | (.error e, _) => .error e
  | (.ok ingest, op) => (x.op.ingested row now ingest).map fun seen => (seen, { x with op })

/-- A control changes the operator, then progress is made. -/
def controlled (grants : ℕ → Grants) : Result Unit × BufferedWindow → Result (List Seen × Executor)
  | (.error e, _) => .error e
  | (.ok (), op) => progress { x with op } grants

def step : Input → Result (List Seen × Executor)
  | .row push drain row clock => do
    let (now, drained, x) ← x.clocked drain clock
    let (seen, x) ← x.pushed push row now
    let (rows, x) ← x.progress drain
    return (drained ++ seen ++ rows, x)
  | .watermark drain input time => x.controlled drain (x.op.watermark input time)
  | .activity drain input active => x.controlled drain (x.op.activity input active)
  | .tick drain clock =>
    -- an event-time or count window does not look at the clock here
    if x.op.isPt then (x.clocked drain clock).map fun (_, seen, x) => (seen, x)
    else .ok ([], x)

/-- Sleep from deadline to deadline, for at most `n` rounds. -/
def sleepFor (grants : ℕ → Grants) (wake : ℤ → ℤ) : ℕ → Executor → Result (List Seen × Executor)
  | 0, x => .ok ([], x)
  | n + 1, x =>
    match x.op.deadline with
    | none => .ok ([], x)
    | some d => do
      let (_, seen, x) ← x.clocked grants (wake d)
      let (more, x) ← sleepFor grants wake n x
      return (seen ++ more, x)

/-- The input is closed: event time is drained to the end, processing time is waited for.
`wake d` is the clock when sleeping until `d` is over. -/
def close (grants : ℕ → Grants) (wake : ℤ → ℤ) : Result (List Seen × Executor) :=
  if x.op.isEt then
    (x.op.drain grants i64Max).map fun (rows, op) => (rows.map .rows, { x with op })
  else sleepFor grants wake x.op.work x

def run (inputs : List Input) (grants : ℕ → Grants) (wake : ℤ → ℤ) : Result (List Seen × Executor) := do
  let (seen, x) ← Machine.runOk step x inputs
  let (last, x) ← x.close grants wake
  return (seen ++ last, x)

def accepted (seen : List Seen) : List Arrival :=
  seen.filterMap fun s => match s with
    | .accepted a => some a
    | _ => none

def results (seen : List Seen) : List Row :=
  seen.flatMap fun s => match s with
    | .rows out => out.rows
    | _ => []

@[simp] theorem accepted_append (as bs : List Seen) : accepted (as ++ bs) = accepted as ++ accepted bs := by
  simp [accepted]

@[simp] theorem results_append (as bs : List Seen) : results (as ++ bs) = results as ++ results bs := by
  simp [results]

@[simp] theorem accepted_rows (outs : List RowBatch) : accepted (outs.map .rows) = [] := by
  simp [accepted, filterMap_map]

@[simp] theorem results_rows (outs : List RowBatch) : results (outs.map .rows) = outs.flatMap (·.rows) := by
  simp [results, flatMap_map]

@[simp] theorem accepted_push (a : Arrival) (outs : List RowBatch) :
    accepted (.accepted a :: outs.map .rows) = [a] := by
  have := accepted_rows outs
  simp only [accepted, filterMap_cons] at this ⊢
  rw [this]

theorem run_append {x x' : Executor} {pre post : List Input} {wake : ℤ → ℤ} {seen : List Seen}
    (h : x.run (pre ++ post) grants wake = .ok (seen, x')) :
    ∃ before x₁ rest, Machine.runOk step x pre = .ok (before, x₁) ∧
      x₁.run post grants wake = .ok (rest, x') ∧ seen = before ++ rest := by
  obtain ⟨⟨all, x₂⟩, hr, h⟩ := bind_eq_ok.mp h
  obtain ⟨⟨last, x₃⟩, hc, h⟩ := bind_eq_ok.mp h
  cases h
  obtain ⟨before, x₁, more, hpr, hp, rfl⟩ := Machine.runOk_append hr
  refine ⟨before, x₁, more ++ last, hpr, ?_, by simp⟩
  exact bind_eq_ok.mpr ⟨_, hp, bind_eq_ok.mpr ⟨_, hc, rfl⟩⟩

end Executor

end Sparrow.Runtime
