import Sparrow.Runtime.BufferedRule

/-!
# What a window of time retains

The abstract state of a window of time is a ledger: all that has arrived, numbered in
order of arrival, and for each key a cut. The operator retains of each key exactly the
arrivals above the cut, in time order and, at one time, in order of arrival, although
its own numbers start again with each new group.

## What is proved

* `entries_added` — an event goes behind everything of its time or earlier.
* `Retains.push`, `Retains.settle` — what a push and a settled group do to the ledger.
-/

namespace Sparrow.Runtime

open Library Model Plan List

/-- An arrival with its number in a run. -/
abbrev Numbered := Arrival × ℕ

def Numbered.time (p : Numbered) : ℤ := p.1.time

def Executor.arrivals (seen : List Seen) : List Numbered := (Executor.accepted seen).zipIdx

variable {p : Numbered} {seen : List Seen} {w : BufferedWindow} {k : Bytes} {arrived : List Numbered} {g : Group}
  {cut : ℤ} {c : BufferedConfig} {pending : ℕ → Bool}

namespace Executor

theorem arrivals_append_of_none {more : List Seen} (h : accepted more = []) :
    arrivals (seen ++ more) = arrivals seen := by
  simp [arrivals, h]

theorem arrivals_concat (seen : List Seen) (a : Arrival) (outs : List RowBatch) :
    arrivals (seen ++ .accepted a :: outs.map .rows) = arrivals seen ++ [(a, (accepted seen).length)] := by
  simp [arrivals, zipIdx_append]

theorem mem_arrivals_append {before rest : List Seen} (h : p ∈ arrivals (before ++ rest)) :
    p ∈ arrivals before ∨ p.1 ∈ accepted rest := by
  rw [arrivals, accepted_append, zipIdx_append, mem_append] at h
  exact h.imp id fun h => fst_mem_of_mem_zipIdx h

theorem results_accepted (seen : List Seen) (a : Arrival) (outs : List RowBatch) :
    results (seen ++ .accepted a :: outs.map .rows) = results seen ++ outs.flatMap (·.rows) := by
  rw [results_append]
  congr 1
  have := results_rows outs
  simpa [results] using this

theorem arrivals_note (seen : List Seen) {s : Seen} (h : ∀ a, s ≠ .accepted a) :
    arrivals (seen ++ [s]) = arrivals seen := by
  refine arrivals_append_of_none ?_
  cases s with
  | accepted a => exact absurd rfl (h a)
  | _ => rfl

theorem results_note (seen : List Seen) {s : Seen} (h : ∀ b, s ≠ .rows b) : results (seen ++ [s]) = results seen := by
  cases s with
  | rows b => exact absurd rfl (h b)
  | _ => simp [results]

theorem snd_lt_of_mem_arrivals (h : p ∈ arrivals seen) : p.2 < (accepted seen).length := by
  have := snd_lt_of_mem_zipIdx h
  simpa using this

theorem nodup_arrivals (seen : List Seen) : ((arrivals seen).map Prod.snd).Nodup := by
  rw [arrivals, zipIdx_map_snd]
  exact nodup_range'

theorem eq_of_mem_arrivals {q : Numbered} (hp : p ∈ arrivals seen) (hq : q ∈ arrivals seen) (h : p.2 = q.2) : p = q :=
  inj_on_of_nodup_map (nodup_arrivals seen) hp hq h

end Executor

namespace BufferedWindow

/-- What a window reads of a retained event. -/
def view (e : EventEntry) : ℤ × List Scalar × Bool := (timeOf e, e.2.values, e.2.pending)

def entered (pending : ℕ → Bool) (p : Numbered) : ℤ × List Scalar × Bool := (p.time, p.1.values, pending p.2)

def eventsOf (w : BufferedWindow) (k : Bytes) : List EventEntry :=
  ((w.groups.get? k).map fun g => g.events.entries).getD []

def keptAfter (arrived : List Numbered) (k : Bytes) (cut : ℤ) : List Numbered :=
  byTime Numbered.time (arrived.filter fun p => p.1.key = k ∧ cut < p.time)

/-- The operator retains the arrivals above the cut of their key. -/
def Retains (arrived : List Numbered) (cut : Bytes → ℤ) (pending : ℕ → Bool) (w : BufferedWindow) : Prop :=
  ∀ k, (w.eventsOf k).map view = (keptAfter arrived k (cut k)).map (entered pending)

theorem eventsOf_eq (hg : w.groups.get? k = some g) : w.eventsOf k = g.events.entries := by
  simp [eventsOf, hg]

theorem eventsOf_groupFor (w : BufferedWindow) (row : Row) :
    w.eventsOf (w.rowKey row) = (w.groupFor row).events.entries := by
  unfold eventsOf groupFor
  cases w.groups.get? (w.rowKey row) <;> rfl

/-! ### Taking in an event -/

theorem insertEntry_eq_place {l : List EventEntry} {t : ℤ} {n : ℕ} (event : Event)
    (hn : ∀ e ∈ l, seqOf e < n) :
    SortedMap.insertEntry (toLex (t, n)) event l = place timeOf (toLex (t, n), event) l := by
  induction l with
  | nil => rfl
  | cons e rest ih =>
    have hs := hn e mem_cons_self
    have ih := ih fun e' he' => hn e' (mem_cons_of_mem _ he')
    obtain ⟨k, v⟩ := e
    have hlt : toLex (t, n) < k ↔ t < timeOf (k, v) := by
      rw [Prod.Lex.lt_iff]
      simp only [timeOf, seqOf, ofLex_toLex] at hs ⊢
      omega
    have hne : toLex (t, n) ≠ k := by
      rintro rfl
      simp [seqOf] at hs
    rw [SortedMap.insertEntry, place_cons, ih]
    simp only [hlt, hne, ↓reduceIte]
    have ht : timeOf (toLex (t, n), event) = t := rfl
    rw [ht]
    by_cases h : t < timeOf (k, v)
    · rw [if_pos h, if_neg (not_le.mpr h)]
    · rw [if_neg h, if_pos (not_lt.mp h)]

/-- A window that emits the row of an event as soon as it arrives. -/
def isPrompt : WindowKind → Bool
  | .slidingProcessingTime _ delay => delay = 0
  | _ => false

theorem emittedNow_of_prompt (g : Group) (time : ℤ) (sequence : ℕ) (kind : WindowKind) :
    g.emittedNow time sequence kind = if isPrompt kind then
      { g with events := g.events.modify (toLex (time, sequence)) fun e => { e with pending := false } }
    else g := by
  cases kind <;> simp [Group.emittedNow, isPrompt]

theorem seqOf_lt (hr : w.Ranged) (row : Row) :
    ∀ e ∈ (w.groupFor row).events.entries, seqOf e < (w.groupFor row).sequence + 1 := by
  intro e he
  obtain ⟨g, hg, hm⟩ := mem_groupFor he
  have hs : (w.groupFor row).sequence = g.sequence := by simp [groupFor, hg]
  exact Nat.lt_succ_of_le (hs ▸ hr.numbered _ g hg e hm)

theorem entries_added (hr : w.Ranged) (row : Row) (timestamp : ℤ) (event : Event) :
    ((w.groupFor row).added timestamp ((w.groupFor row).sequence + 1) event).events.entries =
      place timeOf (toLex (timestamp, (w.groupFor row).sequence + 1), event)
        (w.groupFor row).events.entries :=
  insertEntry_eq_place event (seqOf_lt hr row)

theorem entries_retainedGroup (hr : w.Ranged) (hc : w.spec.kind.isCount = false) (row : Row) (timestamp : ℤ)
    {event : Event} (hp : event.pending = true) :
    (w.retainedGroup row timestamp event).events.entries =
      place timeOf (toLex (timestamp, (w.groupFor row).sequence + 1),
        { event with pending := !isPrompt w.spec.kind }) (w.groupFor row).events.entries := by
  rw [retainedGroup_timed hc, emittedNow_of_prompt]
  cases hpr : isPrompt w.spec.kind with
  | false =>
    have hs : ({ event with pending := !false } : Event) = event := by
      cases event
      simp_all
    rw [hs]
    exact entries_added hr row timestamp event
  | true =>
    -- only the new entry has the new number
    simp only [↓reduceIte, SortedMap.modify, entries_added hr]
    have hold : ∀ e ∈ (w.groupFor row).events.entries, e.1 ≠ toLex (timestamp, (w.groupFor row).sequence + 1) := by
      intro e he heq
      have := seqOf_lt hr row e he
      simp [seqOf, heq] at this
    set fire : EventEntry → EventEntry := fun e =>
      if e.1 = toLex (timestamp, (w.groupFor row).sequence + 1) then
        (e.1, { e.2 with pending := false }) else e with hf
    have ht : ∀ e, timeOf (fire e) = timeOf e := fun e => by
      simp only [hf]
      split_ifs <;> rfl
    have hm : (w.groupFor row).events.entries.map fire = (w.groupFor row).events.entries := by
      refine (map_congr_left fun e he => ?_).trans (map_id _)
      simp [hf, hold e he]
    rw [map_place ht, hm]
    simp [hf]

variable {timestamp : ℤ} {adm : Admission} {row : Row}

theorem get?_insertEvent (hc : w.spec.kind.isCount = false) (ha : w.Admits row timestamp adm) :
    (w.insertEvent adm timestamp).groups.get? adm.group.key.encoded =
      some ((w.groupFor row).added timestamp ((w.groupFor row).sequence + 1) adm.event) := by
  have he : ∀ g : Group, g.excess w.spec.kind = 0 := by
    intro g
    cases hk : w.spec.kind <;> simp_all [Group.excess, WindowKind.isCount]
  obtain ⟨schedule, hun⟩ := w.unschedule_frame adm.group.key.encoded adm.group.deadline
  unfold insertEvent
  simp only [hun]
  simp [hc, Group.trimmed, he, ha.group, ha.sequence]

theorem eventsOf_insert {groups : SortedMap Bytes Group} (hg : w.groups = groups.insert k g) (k' : Bytes) :
    w.eventsOf k' = if k' = k then g.events.entries
      else ((groups.get? k').map fun g => g.events.entries).getD [] := by
  unfold eventsOf
  rw [hg, SortedMap.get?_insert]
  split_ifs <;> rfl

theorem keptAfter_append_of_ne (h : p.1.key ≠ k) : keptAfter (arrived ++ [p]) k cut = keptAfter arrived k cut := by
  simp [keptAfter, filter_append, h]

theorem keptAfter_append (h : cut < p.time) :
    keptAfter (arrived ++ [p]) p.1.key cut = place Numbered.time p (keptAfter arrived p.1.key cut) := by
  rw [keptAfter, filter_append, filter_cons_of_pos (by simp [h]), filter_nil, byTime_concat]
  rfl

theorem mem_keptAfter : p ∈ keptAfter arrived k cut ↔ p ∈ arrived ∧ p.1.key = k ∧ cut < p.time := by
  simp [keptAfter]

variable {pending' : ℕ → Bool}

/-- **Retaining an event enters it into the ledger**, its row still to come unless the window
is prompt. -/
theorem Retains.push {cut : Bytes → ℤ} (hr : Retains arrived cut pending w) (hw : w.Sane c)
    (ha : w.Admits row timestamp adm)
    (hc : cut (w.rowKey row) < timestamp) {n : ℕ} (hold : ∀ p ∈ arrived, pending' p.2 = pending p.2)
    (hn : pending' n = !isPrompt w.spec.kind) :
    Retains (arrived ++ [(⟨w.rowKey row, timestamp, adm.event.values⟩, n)])
      cut pending' (w.retained adm timestamp) := by
  have he : ∀ k cut, (keptAfter arrived k cut).map (entered pending') =
      (keptAfter arrived k cut).map (entered pending) := fun k cut =>
    map_congr_left fun p hp => by simp [entered, hold p (mem_keptAfter.mp hp).1]
  intro k
  rw [eventsOf_insert (retained_spec hw.wf ha).2]
  split_ifs with hk
  · subst hk
    have hg := hr (w.rowKey row)
    rw [eventsOf_groupFor] at hg
    have hc' : cut (w.rowKey row) <
        Numbered.time (⟨w.rowKey row, timestamp, adm.event.values⟩, n) := hc
    rw [keptAfter_append hc']
    rw [entries_retainedGroup hw.ranged hw.timed row timestamp ha.pending,
      map_place (τ := timeOf) (υ := Prod.fst) (f := view) (fun _ => rfl),
      map_place (τ := Numbered.time) (υ := Prod.fst) (f := entered pending') (fun _ => rfl),
      hg, he]
    simp [view, entered, timeOf, Numbered.time, hn]
  · rw [keptAfter_append_of_ne (fun h => hk h.symm), he]
    exact hr k

/-! ### Settling a group -/

variable {deadline : ℤ} {key : Bytes}

theorem eventsOf_settle (hw : w.Sane c) (hg : w.groups.get? key = some g)
    (hd : g.deadline = some deadline) (time : ℤ) (consumed : Option (ℤ ×ₗ ℕ)) (k : Bytes) :
    (w.settle key g deadline time consumed).eventsOf k =
      if k = key then (g.settled time consumed w.spec.kind).events.entries else w.eventsOf k := by
  have hs := (settle_spec hw.wf hg hd time consumed).2
  unfold eventsOf
  rw [hs]
  obtain rfl | hk := eq_or_ne k key
  · rw [if_pos rfl]
    split_ifs with he
    · simp [SortedMap.get?_erase, he]
    · simp
  · rw [if_neg hk]
    split_ifs with he
    · rw [SortedMap.get?_erase, if_neg hk]
    · rw [SortedMap.get?_insert, if_neg hk]

/-- **Settling a group raises the cut of its key.** -/
theorem Retains.settle {cut : Bytes → ℤ} (hr : Retains arrived cut pending w) (hw : w.Sane c)
    (hg : w.groups.get? key = some g) (hd : g.deadline = some deadline) (time : ℤ)
    (consumed : Option (ℤ ×ₗ ℕ)) {newCut : ℤ}
    (hs : (g.settled time consumed w.spec.kind).events.entries.map view =
      (keptAfter arrived key newCut).map (entered pending'))
    (hold : ∀ p ∈ arrived, p.1.key ≠ key → pending' p.2 = pending p.2) :
    Retains arrived (Function.update cut key newCut) pending'
      (w.settle key g deadline time consumed) := by
  intro k
  rw [eventsOf_settle hw hg hd]
  split_ifs with hk
  · subst hk
    rw [Function.update_self]
    exact hs
  · rw [Function.update_of_ne hk, hr k]
    refine map_congr_left fun p hp => ?_
    obtain ⟨hm, hke, -⟩ := mem_keptAfter.mp hp
    simp [entered, hold p hm (hke ▸ hk)]

/-! ### Results -/

/-- `row` is a result for a key: its bounds, which a reader finds in it, and what the aggregates come to over
`inputs`, each folded on its own. -/
def IsResult (w : BufferedWindow) (k : Bytes) (start stop : ℤ) (inputs : List (List Scalar)) (row : Row) : Prop :=
  finalOf w.keys.length row = some (k, start, stop) ∧
  ∃ key empty accs, encodeKeyValues key = k ∧ w.newAccumulators = .ok empty ∧
    Aggregated empty inputs accs ∧ row = resultRow key start stop accs

def core (e : EventEntry) : ℤ × List Scalar := (timeOf e, e.2.values)

variable {entries : List EventEntry}

theorem map_core_of_view {kept : List Numbered}
    (h : entries.map view = kept.map (entered pending)) :
    entries.map core = kept.map fun p => (p.time, p.1.values) := by
  have := congrArg (List.map fun v : ℤ × List Scalar × Bool => (v.1, v.2.1)) h
  rw [map_map, map_map] at this
  exact this

variable {low : ℤ}

theorem filter_core (high : ℤ)
    (h : entries.map core = (keptAfter arrived k cut).map fun p => (p.time, p.1.values)) (hlo : cut < low) :
    (entries.filter fun e => low ≤ timeOf e ∧ timeOf e < high).map core =
      (byTime Numbered.time (arrived.filter fun p =>
        p.1.key = k ∧ low ≤ p.time ∧ p.time < high)).map fun p => (p.time, p.1.values) := by
  -- select on the times in the pairs
  have hle : (entries.filter fun e => low ≤ timeOf e ∧ timeOf e < high).map core =
      (entries.map core).filter fun v => low ≤ v.1 ∧ v.1 < high := by
    rw [filter_map]
    rfl
  have hr : ((keptAfter arrived k cut).map fun p => (p.time, p.1.values)).filter
      (fun v => low ≤ v.1 ∧ v.1 < high) =
      ((keptAfter arrived k cut).filter fun p => low ≤ p.time ∧ p.time < high).map
        fun p => (p.time, p.1.values) := by
    rw [filter_map]
    rfl
  rw [hle, h, hr, keptAfter, filter_byTime, filter_filter]
  congr 2
  refine filter_congr fun p _ => ?_
  by_cases hk : p.1.key = k <;> by_cases hl : low ≤ p.time <;>
    simp [hk, hl, hlo.trans_le]

theorem inputsBetween_eq (hc : w.spec.kind.isCount = false) (g : Group) (low high : ℤ) :
    w.inputsBetween g low high =
      (g.events.entries.filter fun e => low ≤ timeOf e ∧ timeOf e < high).map (·.2.values) := by
  simp [inputsBetween, hc]

theorem newAccumulators_congr {w' : BufferedWindow} (h : w.toBufferedConfig = w'.toBufferedConfig) :
    w.newAccumulators = w'.newAccumulators := by
  unfold newAccumulators
  rw [h]

theorem isResult_of_aggregate {w₀ : BufferedWindow} (hc : w.toBufferedConfig = w₀.toBufferedConfig)
    (hk : encodeKeyValues g.key.values = k) (hw : g.key.values.length = w.keys.length) {start stop high : ℤ}
    (hs : fitsI64 start = true) (hst : fitsI64 stop = true) {grants : Grants} {out : RowBatch}
    (ha : w.aggregate grants g start stop low high = .ok out) :
    ∃ row, out.rows = [row] ∧ w₀.IsResult k start stop (w.inputsBetween g low high) row := by
  obtain ⟨empty, accs, he, hf, rfl⟩ := aggregate_eq_ok ha
  refine ⟨_, rfl, ?_, g.key.values, empty, accs, hk, ?_, hf, rfl⟩
  · rw [← hk]
    exact finalOf_resultRow accs (by rw [hw, hc]) hs hst
  · rw [← he]
    exact (newAccumulators_congr hc).symm

end BufferedWindow

end Sparrow.Runtime
