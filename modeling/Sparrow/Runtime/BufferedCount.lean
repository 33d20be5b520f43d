import Mathlib.Data.List.Induction
import Sparrow.Runtime.BufferedLedger

/-!
# Sliding count windows

`buffered_window.rs`, `push` for `SlidingCount`: a key keeps the inputs of its last `size`
arrivals, and every `step` arrivals the full window is emitted at once. Nothing is scheduled,
and neither the clock nor the arrivals of other keys have a part in it.
-/

namespace Sparrow.Runtime

open Library Model Plan SortedMap List BufferedWindow

variable {inputs : List (List Scalar)} {row : Row} {timestamp : ℤ} {adm : Admission}

namespace BufferedWindow

/-- One call of `push`. -/
structure Pushed where
  grants : Grants
  row : Row
  now : ℤ

/-- Calls of `push`, none of which fails. -/
def pushAll (w : BufferedWindow) : List Pushed → Result BufferedWindow
  | [] => .ok w
  | p :: rest =>
    match w.push p.grants p.row p.now with
    | (.error e, _) => .error e
    | (.ok _, w) => pushAll w rest

def arrivalsOf (w : BufferedWindow) (k : Bytes) (pushes : List Pushed) : List Pushed :=
  pushes.filter fun p => w.rowKey p.row = k

def inputsOf (w : BufferedWindow) (k : Bytes) (pushes : List Pushed) : List (List Scalar) :=
  (w.arrivalsOf k pushes).filterMap fun p => (w.evalInputs p.row).toOption

/-- What an output of a count window is: the fold of the last inputs of the key, under the values
of its first row. -/
def IsCounted (w : BufferedWindow) (k : Bytes) (size : ℕ) (pushes : List Pushed) (out : RowBatch) : Prop :=
  ∃ first empty accs, (w.arrivalsOf k pushes).head? = some first ∧ w.newAccumulators = .ok empty ∧
    Aggregated empty ((w.inputsOf k pushes).drop ((w.inputsOf k pushes).length - size)) accs ∧
    out = { schema := w.output, rows := [resultRow (w.keyValues first.row)
      ((w.inputsOf k pushes).length - size : ℤ) (w.inputsOf k pushes).length accs] }

section Lists

variable {w : BufferedWindow} {k : Bytes} {pushes : List Pushed} {p : Pushed}

theorem arrivalsOf_concat : w.arrivalsOf k (pushes ++ [p]) =
    if w.rowKey p.row = k then w.arrivalsOf k pushes ++ [p] else w.arrivalsOf k pushes := by
  unfold arrivalsOf
  rw [filter_append]
  split_ifs with hk
  · rw [filter_cons_of_pos (by simpa using hk), filter_nil]
  · rw [filter_cons_of_neg (by simpa using hk), filter_nil, append_nil]

theorem inputsOf_concat {values : List Scalar} (hv : w.evalInputs p.row = .ok values) :
    w.inputsOf k (pushes ++ [p]) =
      if w.rowKey p.row = k then w.inputsOf k pushes ++ [values] else w.inputsOf k pushes := by
  unfold inputsOf
  rw [arrivalsOf_concat]
  split_ifs
  · rw [filterMap_append]
    simp [hv, Except.toOption]
  · rfl

end Lists

/-! ### What a group holds -/

/-- The entry of the `i`-th arrival of a key, counted from zero. -/
def countEntry (values : List Scalar) (i : ℕ) : (ℤ ×ₗ ℕ) × List Scalar :=
  (toLex (((i + 1 : ℕ) : ℤ), i + 1), values)

def countEntries (inputs : List (List Scalar)) : List ((ℤ ×ₗ ℕ) × List Scalar) :=
  inputs.mapIdx fun i v => countEntry v i

/-- A group after the arrivals of its key: the last `size` of them. -/
structure HoldsLast (w₀ : BufferedWindow) (size : ℕ) (arrived : List Pushed)
    (inputs : List (List Scalar)) (g : Group) : Prop where
  first : ∃ first, arrived.head? = some first ∧ g.key.values = w₀.keyValues first.row
  sequence : g.sequence = inputs.length
  entries : (g.events.entries.map fun e => (e.1, e.2.values)) =
    (countEntries inputs).drop (inputs.length - size)

structure Counted (w₀ : BufferedWindow) (size : ℕ) (pushes : List Pushed) (w : BufferedWindow) : Prop where
  config : w.toBufferedConfig = w₀.toBufferedConfig
  wf : w.Wf
  evaluated : ∀ k, (w₀.inputsOf k pushes).length = (w₀.arrivalsOf k pushes).length
  absent : ∀ k, w.groups.get? k = none → w₀.arrivalsOf k pushes = []
  present : ∀ k g, w.groups.get? k = some g →
    HoldsLast w₀ size (w₀.arrivalsOf k pushes) (w₀.inputsOf k pushes) g

theorem insertEntry_last {κ ν : Type*} [LinearOrder κ] {k : κ} (v : ν) {l : List (κ × ν)}
    (h : ∀ e ∈ l, e.1 < k) :
    insertEntry k v l = l ++ [(k, v)] := by
  induction l with
  | nil => rfl
  | cons e rest ih =>
    have hlt := h e mem_cons_self
    rw [insertEntry, if_neg (not_lt.mpr hlt.le), if_neg hlt.ne', ih fun e he => h e (mem_cons_of_mem _ he),
      cons_append]

theorem drop_last_concat {α : Type*} (l : List α) (a : α) (size : ℕ) :
    (l.drop (l.length - size) ++ [a]).drop ((l.drop (l.length - size) ++ [a]).length - size) =
      (l ++ [a]).drop ((l ++ [a]).length - size) := by
  have ha : l.drop (l.length - size) ++ [a] = (l ++ [a]).drop (l.length - size) := by
    rw [drop_append_of_le_length (Nat.sub_le _ _)]
  rw [ha, drop_drop]
  congr 1
  simp only [length_drop, length_append, length_singleton]
  omega

theorem countEntries_concat (inputs : List (List Scalar)) (values : List Scalar) :
    countEntries (inputs ++ [values]) = countEntries inputs ++ [countEntry values inputs.length] := by
  simp [countEntries, mapIdx_append]

theorem map_snd_countEntries (inputs : List (List Scalar)) : (countEntries inputs).map Prod.snd = inputs := by
  refine ext_getElem (by simp [countEntries]) fun i _ _ => ?_
  simp [countEntries, countEntry]

variable {size : ℕ}

theorem lt_countEntry {entries : List EventEntry}
    (h : (entries.map fun e => (e.1, e.2.values)) = (countEntries inputs).drop (inputs.length - size)) :
    ∀ e ∈ entries, e.1 < toLex (((inputs.length + 1 : ℕ) : ℤ), inputs.length + 1) := by
  intro e he
  have hm : (e.1, e.2.values) ∈ countEntries inputs :=
    mem_of_mem_drop (h ▸ mem_map_of_mem (f := fun e : EventEntry => (e.1, e.2.values)) he)
  obtain ⟨i, hi, heq⟩ := List.mem_mapIdx.mp hm
  rw [← congrArg Prod.fst heq, countEntry, Prod.Lex.lt_iff]
  left
  simp only [ofLex_toLex]
  omega

/-- A group with one more arrival, of which it keeps the last `size`. -/
def slid (g : Group) (size step : ℕ) (event : Event) : Group :=
  (g.added ((g.sequence + 1 : ℕ) : ℤ) (g.sequence + 1) event).trimmed (.slidingCount size step)

variable {g : Group}

/-- **One more arrival**: the group holds the last `size` again. -/
theorem entries_trimmed (step : ℕ) (hs : g.sequence = inputs.length)
    (he : (g.events.entries.map fun e => (e.1, e.2.values)) =
      (countEntries inputs).drop (inputs.length - size))
    (event : Event) : ((slid g size step event).events.entries.map fun e => (e.1, e.2.values)) =
      (countEntries (inputs ++ [event.values])).drop ((inputs ++ [event.values]).length - size) := by
  have ha : (g.added ((g.sequence + 1 : ℕ) : ℤ) (g.sequence + 1) event).events.entries =
      g.events.entries ++ [(toLex (((g.sequence + 1 : ℕ) : ℤ), g.sequence + 1), event)] :=
    insertEntry_last event (hs ▸ lt_countEntry he)
  have hl : (countEntries inputs).length = inputs.length := by simp [countEntries]
  have hm := drop_last_concat (countEntries inputs) (countEntry event.values inputs.length) size
  rw [hl, ← he, ← countEntries_concat] at hm
  have hl' : (countEntries (inputs ++ [event.values])).length = (inputs ++ [event.values]).length := by
    simp [countEntries]
  rw [hl'] at hm
  have ht : (slid g size step event).events.entries =
      (g.added ((g.sequence + 1 : ℕ) : ℤ) (g.sequence + 1) event).events.entries.drop
        ((g.added ((g.sequence + 1 : ℕ) : ℤ) (g.sequence + 1) event).events.entries.length - size) := rfl
  rw [← hm, ht, ha, map_drop, map_append, hs]
  simp [countEntry]

/-! ### One push -/

variable {w : BufferedWindow} {step : ℕ} {grants : Grants} {r : Ingest}

theorem push_count {w' : BufferedWindow} (hk : w.spec.kind = .slidingCount size step) {clock : ℤ}
    (h : w.push grants row clock = (.ok r, w')) :
    ∃ timestamp adm out, w.Admits row timestamp adm ∧
      (w.insertEvent adm timestamp).immediateRow grants adm.group.key.encoded timestamp
        adm.sequence = .ok out ∧
      r = .accepted out ∧ w' = w.retained adm timestamp := by
  have het : w.isEt = false := by rw [isEt, hk]; rfl
  have hn : w.now clock = (.ok clock, w) := by rw [now, if_pos (by rw [hk]; rfl)]
  rw [push, hn] at h
  split_ifs at h
  · cases h
  dsimp only at h
  split at h
  · cases h
  case h_2 timestamp _ =>
    rw [isFuture, isLate, het, Bool.false_and, Bool.false_and] at h
    simp only [Bool.false_eq_true, if_false] at h
    split at h
    · cases h
    case h_2 adm ha =>
      unfold retain at h
      split at h
      · cases h
      case h_2 out ho =>
        obtain ⟨s, g, b, n, hr⟩ := w.retained_frame adm timestamp
        have he' : (w.retained adm timestamp).isEt = false := by rw [hr]; exact het
        rw [observe, if_neg (by simp [he'])] at h
        obtain ⟨rfl, rfl⟩ : _ ∧ _ := by simpa using h
        exact ⟨timestamp, adm, out, admission_eq_ok ha, ho, rfl, rfl⟩

theorem get?_insertEvent_count (hk : w.spec.kind = .slidingCount size step)
    (ha : w.Admits row timestamp adm) :
    (w.insertEvent adm timestamp).groups.get? adm.group.key.encoded =
      some (slid (w.groupFor row) size step adm.event) := by
  obtain ⟨schedule, hun⟩ := w.unschedule_frame adm.group.key.encoded adm.group.deadline
  unfold insertEvent
  simp only [hun]
  rw [get?_insert_self, ha.group, ha.sequence, hk]
  rfl

theorem groups_retained_count (hw : w.Wf)
    (hk : w.spec.kind = .slidingCount size step) (ha : w.Admits row timestamp adm) :
    ∃ deadline, (w.retained adm timestamp).groups = w.groups.insert (w.rowKey row)
      { slid (w.groupFor row) size step adm.event with deadline } := by
  have hg : w.retainedGroup row timestamp adm.event = slid (w.groupFor row) size step adm.event := by
    rw [retainedGroup, hk]
    rfl
  have hs := (retained_spec hw ha).2
  rw [hg] at hs
  exact ⟨_, hs⟩

variable {w₀ w w' : BufferedWindow} {size step : ℕ} {pushes : List Pushed} {p : Pushed}

theorem Counted.groupFor (h : Counted w₀ size pushes w) (p : Pushed) :
    (w.groupFor p.row).sequence = (w₀.inputsOf (w₀.rowKey p.row) pushes).length ∧
      ((w.groupFor p.row).events.entries.map fun e => (e.1, e.2.values)) =
        (countEntries (w₀.inputsOf (w₀.rowKey p.row) pushes)).drop
          ((w₀.inputsOf (w₀.rowKey p.row) pushes).length - size) ∧
      ∃ first, (w₀.arrivalsOf (w₀.rowKey p.row) (pushes ++ [p])).head? = some first ∧
        (w.groupFor p.row).key.values = w₀.keyValues first.row := by
  have hk : w.rowKey p.row = w₀.rowKey p.row := by simp only [rowKey, keyValues, h.config]
  rw [BufferedWindow.groupFor, hk, arrivalsOf_concat, if_pos rfl]
  cases hg : w.groups.get? (w₀.rowKey p.row) with
  | none =>
    have hn := h.absent _ hg
    have he : w₀.inputsOf (w₀.rowKey p.row) pushes = [] := by rw [inputsOf, hn, filterMap_nil]
    rw [he, hn]
    refine ⟨rfl, ?_, p, rfl, by simp only [Option.getD_none, keyValues, h.config]⟩
    simp [countEntries, empty]
  | some g =>
    obtain ⟨⟨first, hf, hv⟩, hs, hen⟩ := h.present _ g hg
    exact ⟨hs, hen, first, by rw [head?_append, hf, Option.some_or], hv⟩

theorem inputsBetween_count (hk : w.spec.kind = .slidingCount size step)
    (hen : (g.events.entries.map fun e => (e.1, e.2.values)) =
      (countEntries inputs).drop (inputs.length - size)) :
    w.inputsBetween g i64Min i64Max = inputs.drop (inputs.length - size) := by
  have ha : (g.events.entries.filter fun e => timeOf e ≥ i64Min ∧ (w.spec.kind.isCount ∨ timeOf e < i64Max)) =
      g.events.entries := by
    rw [filter_eq_self]
    intro e he
    have hme : (e.1, e.2.values) ∈ countEntries inputs :=
      mem_of_mem_drop (hen ▸ mem_map_of_mem (f := fun e : EventEntry => (e.1, e.2.values)) he)
    obtain ⟨i, hi, heq⟩ := List.mem_mapIdx.mp hme
    have ht : timeOf e = ((i + 1 : ℕ) : ℤ) := by rw [timeOf, ← congrArg Prod.fst heq]; rfl
    have hc : w.spec.kind.isCount = true := by rw [hk]; rfl
    simp only [ht, hc, true_or, and_true, decide_eq_true_eq, i64Min]
    omega
  have hm := congrArg (List.map Prod.snd) hen
  rw [map_map, map_drop, map_snd_countEntries] at hm
  rw [inputsBetween, ha, ← hm]
  rfl

theorem immediateRow_count (hk : w.spec.kind = .slidingCount size step)
    (ha : w.Admits row timestamp adm) {out : Option RowBatch}
    (hen : (slid (w.groupFor row) size step adm.event).events.entries.map (fun e => (e.1, e.2.values)) =
      (countEntries inputs).drop (inputs.length - size))
    (h : (w.insertEvent adm timestamp).immediateRow grants adm.group.key.encoded timestamp
      adm.sequence = .ok out) :
    (out.isSome ↔ size ≤ adm.sequence ∧ adm.sequence % step = 0) ∧ ∀ batch, out = some batch →
      ∃ empty accs, w.newAccumulators = .ok empty ∧
        Aggregated empty (inputs.drop (inputs.length - size)) accs ∧
        batch = { schema := w.output, rows := [resultRow (w.groupFor row).key.values
          (adm.sequence - size : ℤ) adm.sequence accs] } := by
  obtain ⟨s, gs, b, n, hfr⟩ := w.insertEvent_frame adm timestamp
  have hc : (w.insertEvent adm timestamp).toBufferedConfig = w.toBufferedConfig := by rw [hfr]
  have hk' : (w.insertEvent adm timestamp).spec.kind = .slidingCount size step := by rw [hc]; exact hk
  rw [immediateRow, get?_insertEvent_count hk ha, immediate, hk'] at h
  dsimp only at h
  split_ifs at h with hd
  · dsimp only at h
    generalize hag : aggregate _ _ _ _ _ _ _ = row at h
    cases row with
    | error e => cases h
    | ok batch =>
    cases h
    refine ⟨by simpa using hd, ?_⟩
    rintro _ ⟨⟩
    obtain ⟨empty, accs, he, hf, rfl⟩ := aggregate_eq_ok hag
    rw [inputsBetween_count hk' hen] at hf
    rw [newAccumulators_congr hc] at he
    exact ⟨empty, accs, he, hf, by rw [hc]; rfl⟩
  · cases h
    refine ⟨by simpa using hd, ?_⟩
    rintro _ ⟨⟩

/-- **A push of a count window**: the operator keeps counting, and the row comes out when the
arrivals of its key make a full window at a step. -/
theorem Counted.push (h : Counted w₀ size pushes w) (hki : w₀.spec.kind = .slidingCount size step)
    (hp : w.push p.grants p.row p.now = (.ok r, w')) :
    Counted w₀ size (pushes ++ [p]) w' ∧ ∃ out, r = .accepted out ∧
      (out.isSome ↔ size ≤ (w₀.arrivalsOf (w₀.rowKey p.row) (pushes ++ [p])).length ∧
        (w₀.arrivalsOf (w₀.rowKey p.row) (pushes ++ [p])).length % step = 0) ∧
      ∀ batch, out = some batch → w₀.IsCounted (w₀.rowKey p.row) size (pushes ++ [p]) batch := by
  have hk' : w.spec.kind = .slidingCount size step := by rw [h.config]; exact hki
  obtain ⟨timestamp, adm, out, ha, ho, rfl, rfl⟩ := push_count hk' hp
  obtain ⟨hs, hen, first, hf, hv⟩ := h.groupFor p
  have hkey : w.rowKey p.row = w₀.rowKey p.row := by simp only [rowKey, keyValues, h.config]
  have he : w₀.evalInputs p.row = .ok adm.event.values := by
    rw [← ha.values]
    simp only [evalInputs, h.config]
  have hi : w₀.inputsOf (w₀.rowKey p.row) (pushes ++ [p]) =
      w₀.inputsOf (w₀.rowKey p.row) pushes ++ [adm.event.values] := by
    rw [inputsOf_concat he, if_pos rfl]
  have hke := entries_trimmed step hs hen adm.event
  rw [← hi] at hke
  have hl : ∀ k, (w₀.inputsOf k (pushes ++ [p])).length = (w₀.arrivalsOf k (pushes ++ [p])).length := by
    intro k
    rw [inputsOf_concat he, arrivalsOf_concat]
    split_ifs <;> simp [h.evaluated]
  have hn : adm.sequence = (w₀.inputsOf (w₀.rowKey p.row) (pushes ++ [p])).length := by
    rw [ha.sequence, hs, hi, length_append, length_singleton]
  constructor
  · obtain ⟨deadline, hg⟩ := groups_retained_count h.wf hk' ha
    obtain ⟨s, gs, b, n, hfr⟩ := w.retained_frame adm timestamp
    rw [hkey] at hg
    refine ⟨by rw [hfr]; exact h.config, (retained_spec h.wf ha).1, hl, fun k hk => ?_, fun k g hk => ?_⟩
    · rw [hg, get?_insert] at hk
      split_ifs at hk with heq
      rw [arrivalsOf_concat, if_neg (Ne.symm heq)]
      exact h.absent k hk
    · rw [hg, get?_insert] at hk
      split_ifs at hk with heq
      · subst heq
        cases hk
        exact ⟨⟨first, hf, hv⟩, ha.sequence.symm.trans hn, hke⟩
      · rw [arrivalsOf_concat, inputsOf_concat he, if_neg (Ne.symm heq), if_neg (Ne.symm heq)]
        exact h.present k g hk
  · obtain ⟨hd, hr⟩ := immediateRow_count hk' ha hke ho
    rw [hn] at hd
    refine ⟨out, rfl, by rw [← hl]; exact hd, ?_⟩
    intro batch hb
    obtain ⟨empty, accs, hem, hfo, rfl⟩ := hr batch hb
    rw [newAccumulators_congr h.config] at hem
    exact ⟨first, empty, accs, hf, hem, hfo, by rw [hv, hn, h.config]⟩

/-! ### Runs -/

theorem Counted.pushAll {more : List Pushed} (hk : w₀.spec.kind = .slidingCount size step)
    (h : Counted w₀ size pushes w) (hr : w.pushAll more = .ok w') : Counted w₀ size (pushes ++ more) w' := by
  induction more generalizing pushes w with
  | nil =>
    cases hr
    rwa [append_nil]
  | cons p rest ih =>
    rw [pushAll] at hr
    split at hr
    · cases hr
    case h_2 r next hp =>
      have hn := ih (h.push hk hp).1 hr
      rwa [append_assoc] at hn

theorem counted_new {spec : WindowSpec} {external : Bool} (h : Created spec external w₀) :
    Counted w₀ size [] w₀ where
  config := rfl
  wf := h.wf
  evaluated _ := rfl
  absent _ _ := rfl
  present k g hk := by simp [h.groups] at hk

theorem Counted.eventsOf (h : Counted w₀ size pushes w) (k : Bytes) :
    ((w.eventsOf k).map fun e => e.2.values) =
      (w₀.inputsOf k pushes).drop ((w₀.inputsOf k pushes).length - size) := by
  unfold BufferedWindow.eventsOf
  cases hg : w.groups.get? k with
  | none =>
    have hn := h.absent k hg
    simp [inputsOf, hn]
  | some g =>
    have hm := congrArg (List.map Prod.snd) (h.present k g hg).entries
    rw [map_map, map_drop, map_snd_countEntries] at hm
    exact hm

/-- **Sliding count windows.** After any pushes without an error, a key retains the inputs of its
own last `size` arrivals, in order, and all of them were evaluated. The push that is its `n`-th
arrival returns a row just when `n` is at least `size` and a multiple of `step`, and that row is
the fold of the last `size` inputs of the key, bounded by `n - size` and `n`. The arrivals of the
other keys and the clock are not in it. -/
theorem sliding_count {spec : WindowSpec} {input : Schema}
    {budgetKeys budgetTimers maxKeys maxTimers size step : ℕ}
    {external : Bool} {w₀ w w' : BufferedWindow}
    (hnew : BufferedWindow.new spec input budgetKeys budgetTimers maxKeys maxTimers external = .ok w₀)
    (hkind : spec.kind = .slidingCount size step) {pushes : List Pushed}
    (hrun : w₀.pushAll pushes = .ok w) {p : Pushed}
    {r : Ingest} (hpush : w.push p.grants p.row p.now = (.ok r, w')) :
    (∀ k, (w₀.inputsOf k (pushes ++ [p])).length = (w₀.arrivalsOf k (pushes ++ [p])).length ∧
      ((w'.eventsOf k).map fun e => e.2.values) =
        (w₀.inputsOf k (pushes ++ [p])).drop ((w₀.inputsOf k (pushes ++ [p])).length - size)) ∧
    ∃ out, r = .accepted out ∧
      (out.isSome ↔ size ≤ (w₀.arrivalsOf (w₀.rowKey p.row) (pushes ++ [p])).length ∧
        (w₀.arrivalsOf (w₀.rowKey p.row) (pushes ++ [p])).length % step = 0) ∧
      ∀ batch, out = some batch → w₀.IsCounted (w₀.rowKey p.row) size (pushes ++ [p]) batch := by
  obtain ⟨hc, -⟩ := new_eq_ok hnew
  have hk' : w₀.spec.kind = .slidingCount size step := by rw [hc.spec_eq]; exact hkind
  have hco : Counted w₀ size pushes w := (counted_new hc).pushAll hk' hrun
  obtain ⟨hn, ho⟩ := hco.push hk' hpush
  exact ⟨fun k => ⟨hn.evaluated k, hn.eventsOf k⟩, ho⟩

/-- Two rows of a key, counted at every second arrival. -/
def pairCounts : WindowSpec :=
  WindowSpec.new (.slidingCount 2 2) ["k"] [{ func := .count, input := none, aliasName := "n", countStar := true }]

def pairWindow : BufferedWindow :=
  Result.value (BufferedWindow.new pairCounts { fields := [⟨"k", .int64, false⟩] } 100 100 100
    100 false) (by decide)

def pairPush (k : Int64) (clock : ℤ) : Pushed := ⟨.all, ⟨[.int64 k]⟩, clock⟩

/-- The operator after a row of the first key and one of the second, the clock stepping back. -/
def pairAfter : BufferedWindow := Result.value (pairWindow.pushAll [pairPush 1 9, pairPush 2 5]) (by decide)

theorem sliding_count_pair : ∃ batch, (pairAfter.push .all ⟨[.int64 1]⟩ 7).1 = .ok (.accepted (some batch)) ∧
    batch.rows.map (·.values) = [[.int64 1, .int64 0, .int64 2, .int64 2]] ∧
    pairWindow.IsCounted (pairWindow.rowKey ⟨[.int64 1]⟩) 2
      [pairPush 1 9, pairPush 2 5, pairPush 1 7] batch := by
  have hn : BufferedWindow.new pairCounts { fields := [⟨"k", .int64, false⟩] } 100 100 100 100
    false = .ok pairWindow := Result.eq_value _
  have hr : pairWindow.pushAll [pairPush 1 9, pairPush 2 5] = .ok pairAfter := Result.eq_value _
  obtain ⟨batch, hb, hv⟩ : ∃ batch, (pairAfter.push .all ⟨[.int64 1]⟩ 7).1 = .ok (.accepted (some batch)) ∧
      batch.rows.map (·.values) = [[.int64 1, .int64 0, .int64 2, .int64 2]] := ⟨_, rfl, rfl⟩
  have hp : pairAfter.push .all ⟨[.int64 1]⟩ 7 = (.ok (.accepted (some batch)), _) := Prod.ext hb rfl
  obtain ⟨-, out, ho, -, hc⟩ := sliding_count (p := pairPush 1 7) hn rfl hr hp
  exact ⟨batch, hb, hv, hc batch (Ingest.accepted.inj ho).symm⟩

end BufferedWindow

end Sparrow.Runtime
