import Sparrow.Runtime.WindowLedger

/-!
# Exactly once: tumbling and hopping windows over event time

What a run of the task reports determines which rows each window was given: a row goes to
those of its windows that end after the output watermark at that moment. The ledger of
`WindowLedger` is kept by every input, so that after any run the finals sent are the folds of
exactly these rows, at most one for each window, and what is still open holds the rest.
-/

namespace Sparrow.Runtime

open Library Model Plan OpenWindows WindowConfig Result List

namespace WindowConfig

/-- The row is dropped as too far ahead of the clock. -/
def dropped (c : WindowConfig) (row : Row) (now : ℤ) : Bool :=
  match c.rowEventTime row with
  | .ok ts => c.isFuture ts now
  | .error _ => false

/-- The windows a row is assigned to. -/
def windowsOf (c : WindowConfig) (row : Row) : List (ℤ × ℤ) :=
  match c.spec.kind.etWindow, c.rowEventTime row with
  | some (size, slide), .ok ts =>
    match c.assigned ts size slide with
    | .ok windows => windows
    | .error _ => []
  | _, _ => []

/-- The windows a row is folded into: of those it is assigned, the ones that end after the
output watermark. -/
def opened (c : WindowConfig) (row : Row) (now : ℤ) (out : Option ℤ) : List (ℤ × ℤ) :=
  if c.dropped row now then [] else (c.windowsOf row).filter fun window => out.all (· < window.2)

end WindowConfig

namespace Log

open WindowOperator

variable (c : WindowConfig)

def given (p : Bytes × ℤ) : Report → Option Row
  | .row row now out =>
    if p.1 = encodeKeyValues (c.groupKey row) ∧ p.2 ∈ (c.opened row now out).map Prod.fst then some row else none
  | _ => none

def content (log : List Report) (p : Bytes × ℤ) : List Row := log.filterMap (given c p)

/-- The final rows, with the input watermark at which each was sent. -/
def finals (log : List Report) : List (Row × Option ℤ) :=
  log.flatMap fun
    | .finals rows wmIn => rows.map (·, wmIn)
    | _ => []

def emitted (log : List Report) : List (Bytes × ℤ) := (finals log).filterMap fun f => c.windowOf f.1

def lates (log : List Report) : List Row :=
  log.filterMap fun
    | .late row => some row
    | _ => none

/-- The row of a report, if it had no open window and was not too far ahead. -/
def unplaced : Report → Option Row
  | .row row now out => if c.dropped row now = false ∧ c.opened row now out = [] then some row else none
  | _ => none

/-- The rows that had no open window, without those too far ahead. -/
def withoutWindow (log : List Report) : List Row := log.filterMap (unplaced c)

theorem content_concat (log : List Report) (row : Row) (now : ℤ) (out : Option ℤ) :
    content c (log ++ [.row row now out]) =
      addRow (content c log) (encodeKeyValues (c.groupKey row)) ((c.opened row now out).map Prod.fst) row := by
  funext p
  rw [content, filterMap_append, addRow]
  split_ifs with h
  · have hg : given c p (.row row now out) = some row := if_pos h
    rw [filterMap_cons_some hg, filterMap_nil, content]
  · have hg : given c p (.row row now out) = none := if_neg h
    rw [filterMap_cons_none hg, filterMap_nil, append_nil, content]

theorem withoutWindow_singleton (row : Row) (now : ℤ) (out : Option ℤ) :
    withoutWindow c [.row row now out] =
      if c.dropped row now = false ∧ c.opened row now out = [] then [row] else [] := by
  unfold withoutWindow
  split_ifs with h
  · have hu : unplaced c (.row row now out) = some row := if_pos h
    rw [filterMap_cons_some hu, filterMap_nil]
  · have hu : unplaced c (.row row now out) = none := if_neg h
    rw [filterMap_cons_none hu, filterMap_nil]

theorem finals_concat (log : List Report) (row : Row) (now : ℤ) (out : Option ℤ) :
    finals (log ++ [.row row now out]) = finals log := by
  simp [finals]

theorem emitted_concat (log : List Report) (row : Row) (now : ℤ) (out : Option ℤ) :
    emitted c (log ++ [.row row now out]) = emitted c log := by
  rw [emitted, finals_concat, emitted]

theorem content_append (log : List Report) {more : List Report}
    (h : ∀ r ∈ more, ∀ p, given c p r = none) : content c (log ++ more) = content c log := by
  funext p
  rw [content, filterMap_append, List.filterMap_eq_nil_iff.mpr fun r hr => h r hr p, append_nil, content]

theorem finals_append (log more : List Report) : finals (log ++ more) = finals log ++ finals more := by
  simp [finals]

theorem emitted_append (log more : List Report) :
    emitted c (log ++ more) = emitted c log ++ emitted c more := by
  simp [emitted, finals]

theorem finals_late (rows : List Row) : finals (rows.map .late) = [] := by
  simp [finals]

theorem finals_batches (batches : List RowBatch) (wmIn : Option ℤ) (wm : ℤ) :
    finals (batches.map (fun b => .finals b.rows wmIn) ++ [.watermark wm]) =
      (batches.flatMap RowBatch.rows).map (·, wmIn) := by
  simp [finals, flatMap_map, map_flatMap]

end Log

variable {d : Downstream} {ts now : ℤ} {out : WindowEmission} {leases : Leases} {sent : List Report} {spec : WindowSpec}

namespace WindowOperator

/-- What holds between the calls: the open windows are balanced against the log. -/
structure Kept (c : WindowConfig) (size : Int64) (log : List Report) (w : WindowOperator)
    (state : MemoryState TumbleEntry) (h : OutputHoldback) : Prop where
  config : w.toWindowConfig = c
  store : w.store = .tumble state
  holdback : w.holdback = some h
  lateness : h.latenessMicros = c.spec.latenessMicros
  capped : h.Capped
  balanced : Balanced c size (Log.content c log) (Log.emitted c log) h.wmOut (w.windows state)
  finals : ∀ f ∈ Log.finals log, c.IsFinal size (Log.content c log) f.2 f.1
  openAt : ∀ b, h.wmOut = some b → (w.windows state).OpenAt b

variable {windows : List (ℤ × ℤ)} {slide : Option Int64} {c : WindowConfig} {size : Int64}

theorem assigned_ok (h : c.assigned ts size slide = .ok windows) : Windows ts size windows := by
  cases slide with
  | some slide => exact (assignHop_ok h).toWindows
  | none =>
    obtain ⟨window, ht, rfl⟩ := map_eq_ok.mp h
    exact assignTumble_ok ht

variable {hub : WatermarkHub}

theorem Observes.nonneg {hu' : WatermarkHub} (h : Observes c hub ts now hu')
    (he : c.externalWatermarks = false) : 0 ≤ ts := by
  obtain ⟨p, hp⟩ : ∃ p, hub.observeEvent .single ts now = (.ok p, hu') := by simpa [Observes, he] using h
  by_contra hn
  simp [WatermarkHub.observeEvent, not_le.mp hn] at hp

section Kept

variable {c : WindowConfig} {size : Int64} {slide : Option Int64} {log : List Report}
  {w w' : WindowOperator} {state : MemoryState TumbleEntry} {h : OutputHoldback}

theorem Advances.kept {h' : OutputHoldback} {pending : Option ℤ}
    (hL : 0 ≤ (h.latenessMicros : ℤ)) (hc : h.Capped) (ha : Advances hub h pending h') :
    h'.latenessMicros = h.latenessMicros ∧ h'.wmOut = h.wmOut ∧ h'.Capped ∧
      (∀ q, pending = some q → h'.Within q) ∧ ∀ q, h.Within q → h'.Within q := by
  unfold Advances at ha
  cases hp : hub.progress with
  | none =>
    rw [hp] at ha
    obtain ⟨rfl, rfl⟩ := ha
    exact ⟨rfl, rfl, hc, nofun, fun q hq => hq⟩
  | some wm =>
    rw [hp] at ha
    exact OutputHoldback.onWmIn_ok hL hc ha

theorem stillOpen_eq (out : Option ℤ) :
    stillOpen out windows = windows.filter fun window => out.all (· < window.2) := by
  cases out <;> simp [stillOpen, ← decide_not]

variable {row : Row}

theorem content_of_emitted (hk : Kept c size log w state h)
    (hw : Windows ts size (c.opened row now h.wmOut)) {p : Bytes × ℤ} (hp : p ∈ Log.emitted c log) :
    Log.content c (log ++ [.row row now h.wmOut]) p = Log.content c log p := by
  rw [Log.content_concat]
  refine if_neg fun ha => ?_
  obtain ⟨q, hq, hqp⟩ := List.mem_map.mp ha.2
  obtain ⟨-, b, hb, hle⟩ := hk.balanced.closed hp
  have hlt : b < q.2 := by
    unfold opened at hq
    split_ifs at hq
    · cases hq
    · simpa [hb] using (List.mem_filter.mp hq).2
  rw [hw.stops q hq, hqp] at hlt
  omega

/-- **What a row keeps.** It is entered into the log with the output watermark, which it does
not move. -/
theorem onRow_kept (hki : c.spec.kind.etWindow = some (size, slide))
    (hL : 0 ≤ (c.spec.latenessMicros : ℤ)) (hk : Kept c size log w state h)
    (hr : w.onRow leases row now = (.ok out, w')) :
    ∃ state' h', Kept c size (log ++ [.row row now h.wmOut]) w' state' h' ∧ h'.wmOut = h.wmOut ∧
      out.finals = [] ∧ out.lates = Log.withoutWindow c [.row row now h.wmOut] ∧
      (∀ q, out.pendingClose = some q → h'.Within q) ∧ ∀ q, h.Within q → h'.Within q := by
  have hco := hk.config
  subst hco
  obtain ⟨ts, scratch, hts, ⟨hfu, rfl, rfl⟩ |
    ⟨hfu, windows, hub, pending, h', o, hob, ha, hfo, had, rfl, rfl⟩⟩ :=
    onRow_ok hki hk.store hk.holdback hr
  · have hd : w.dropped row now = true := by simp [dropped, hts, hfu]
    have ho : w.opened row now h.wmOut = [] := by simp [opened, hd]
    have hc : Log.content w.toWindowConfig (log ++ [.row row now h.wmOut]) =
        Log.content w.toWindowConfig log := by
      rw [Log.content_concat, ho]
      funext p
      simp [addRow]
    refine ⟨state, h, ⟨rfl, hk.store, hk.holdback, hk.lateness, hk.capped, ?_, ?_, hk.openAt⟩,
      rfl, rfl, ?_, by rintro _ ⟨⟩, fun q hq => hq⟩
    · rw [hc, Log.emitted_concat]
      exact hk.balanced
    · rw [hc, Log.finals_concat]
      exact hk.finals
    · simp [Log.withoutWindow_singleton, hd, WindowEmission.none]
  · have hd : w.dropped row now = false := by simp [dropped, hts, hfu]
    have hwm : w.wmOut = h.wmOut := by simp [wmOut, hk.holdback]
    have ho : w.opened row now h.wmOut = stillOpen w.wmOut windows := by
      simp [opened, stillOpen_eq, hd, WindowConfig.windowsOf, hki, hts, ha, hwm]
    have hw : Windows ts size (w.opened row now h.wmOut) := by
      rw [ho]
      exact (assigned_ok ha).sublist filter_sublist
    obtain ⟨hl, hou, hca, hpe, hwi⟩ := had.kept (hk.lateness ▸ hL) hk.capped
    have hop : ∀ p ∈ w.opened row now h.wmOut, ∀ b, h.wmOut = some b → b < p.2 := by
      intro p hp b hb
      rw [ho, hwm, stillOpen_eq] at hp
      simpa [hb] using (List.mem_filter.mp hp).2
    have hba := hk.balanced.folds hw hop hob.nonneg
      (ho ▸ hfo)
    refine ⟨_, h', ⟨rfl, rfl, rfl, hl.trans hk.lateness, hca, ?_, ?_, ?_⟩, hou, rfl, ?_, hpe, hwi⟩
    · rw [Log.content_concat, Log.emitted_concat, hou]
      exact hba
    · intro f hf
      rw [Log.finals_concat] at hf
      refine (hk.finals f hf).congr fun p hp => content_of_emitted hk hw ?_
      exact List.mem_filterMap.mpr ⟨f, hf, hp⟩
    · intro b hb
      rw [hou] at hb
      exact (hk.openAt b hb).folds (fun p hp => hop p hp b hb) (ho ▸ hfo)
    · simp [Log.withoutWindow_singleton, hd, latesOf, ho]

theorem laterClose_cases {a b : Option ℤ} {q : ℤ} (hq : laterClose a b = some q) : a = some q ∨ b = some q := by
  cases a with
  | none => exact .inr hq
  | some x =>
    cases b with
    | none => exact .inl hq
    | some y =>
      obtain rfl : max x y = q := by simpa [laterClose] using hq
      rcases max_choice x y with hm | hm <;> simp [hm]

theorem onRows_kept {leases : ℕ → Leases} {rows : List Row} {i : ℕ} {before : WindowEmission}
    (hki : c.spec.kind.etWindow = some (size, slide)) (hL : 0 ≤ (c.spec.latenessMicros : ℤ))
    (hk : Kept c size log w state h) (hf : before.finals = [])
    (hp : ∀ q, before.pendingClose = some q → h.Within q)
    (hr : w.onRows leases now i before rows = (.ok out, w')) :
    ∃ state' h', Kept c size (log ++ rows.map (.row · now h.wmOut)) w' state' h' ∧ out.finals = [] ∧
      out.lates = before.lates ++ Log.withoutWindow c (rows.map (.row · now h.wmOut)) ∧
      ∀ q, out.pendingClose = some q → h'.Within q := by
  induction rows generalizing w state h log i before with
  | nil =>
    obtain ⟨rfl, rfl⟩ : before = out ∧ w = w' := by simpa [onRows] using hr
    exact ⟨state, h, by simpa using hk, hf, by simp [Log.withoutWindow], hp⟩
  | cons row rest ih =>
    rw [onRows] at hr
    rcases hro : w.onRow (leases i) row now with ⟨_ | _, w₁⟩ <;> rw [hro] at hr
    · simp at hr
    · obtain ⟨state₁, h₁, hk₁, hou, ho, hl, hp₁, hw⟩ := onRow_kept hki hL hk hro
      obtain ⟨state', h', hk', hf', hl', hp'⟩ := ih hk₁
        (by simp [WindowEmission.extend, hf, ho])
        (fun q hq => (laterClose_cases hq).elim (fun hq => hw q (hp q hq)) (hp₁ q)) hr
      rw [hou] at hk' hl'
      refine ⟨state', h', by simpa using hk', hf', ?_, hp'⟩
      rw [hl']
      simp only [WindowEmission.extend, hl, append_assoc, Log.withoutWindow, ← filterMap_append,
        singleton_append, map_cons]

theorem within_lateness {p : ℤ} (hl : h.latenessMicros = c.spec.latenessMicros) (hp : h.Within p) :
    ∃ wm, h.wmIn = some wm ∧ ∀ stop ≤ p, 0 < stop → stop + c.spec.latenessMicros ≤ wm := by
  obtain ⟨⟨wm, hwm, hle⟩, -⟩ := hp
  refine ⟨wm, hwm, fun stop hs hpo => ?_⟩
  unfold OutputHoldback.cap satSubI clampI64 at hle
  rw [hl] at hle
  simp only [i64Min, i64Max] at hle
  omega

/-- **What closing at a watermark keeps.** The windows that end by then are sent, and nothing
that is left does. -/
theorem closeAt_kept {p : ℤ} {closed : List Report} (het : c.spec.kind.usesEventTime = true)
    (hk : Kept c size log w state h) (hp : h.Within p) (hcl : w.closeAt d p = .ok (closed, w')) :
    ∃ state' h', Kept c size (log ++ closed) w' state' h' ∧ Log.lates closed = [] ∧
      Log.withoutWindow c closed = [] := by
  have hco := hk.config
  subst hco
  obtain ⟨o, batches, ht, ho, rfl, rfl⟩ :=
    closeAt_ok het hk.store hk.balanced.indexed hk.holdback hcl
  have hs : w.suffixedKey = true := by simp [suffixedKey, het]
  obtain ⟨hfi, hb⟩ := (hk.balanced.mono hp.2).takes hs
    (within_lateness hk.lateness hp) ht
  have hn : ∀ r ∈ batches.map (fun b => Report.finals b.rows h.wmIn) ++ [.watermark p],
      ∀ q, Log.given w.toWindowConfig q r = none := by
    intro r hr q
    obtain hr | hr := List.mem_append.mp hr
    · obtain ⟨b, -, rfl⟩ := List.mem_map.mp hr
      rfl
    · rw [List.mem_singleton.mp hr]
      rfl
  have hc := Log.content_append w.toWindowConfig log hn
  have he : Log.emitted w.toWindowConfig (batches.map (fun b => .finals b.rows h.wmIn) ++ [.watermark p]) =
      (batches.flatMap RowBatch.rows).filterMap w.windowOf := by
    rw [Log.emitted, Log.finals_batches, filterMap_map]
    rfl
  refine ⟨_, _, ⟨rfl, rfl, rfl, hk.lateness, hp.advanced, ?_, ?_, ?_⟩, ?_, ?_⟩
  · rw [hc, Log.emitted_append, he]
    exact hb
  · intro f hf
    rw [Log.finals_append, Log.finals_batches] at hf
    rw [hc]
    obtain hf | hf := List.mem_append.mp hf
    · exact hk.finals f hf
    · obtain ⟨row, hro, rfl⟩ := List.mem_map.mp hf
      exact hfi row hro
  · rintro b ⟨⟩
    exact ho
  · simp [Log.lates]
  · simp [Log.withoutWindow, Log.unplaced]

theorem emitWindow_kept (het : c.spec.kind.usesEventTime = true) (hk : Kept c size log w state h)
    (hf : out.finals = []) (hp : ∀ q, out.pendingClose = some q → h.Within q)
    (he : w.emitWindow d out = .ok (sent, w')) :
    ∃ state' h', Kept c size (log ++ sent) w' state' h' ∧ Log.lates sent = out.lates ∧
      Log.withoutWindow c sent = [] := by
  -- late rows change nothing in the ledger
  have hno : ∀ r ∈ out.lates.map Report.late, ∀ q, Log.given c q r = none := by
    intro r hr q
    obtain ⟨row, -, rfl⟩ := List.mem_map.mp hr
    rfl
  have hc := Log.content_append c log hno
  have hl : Kept c size (log ++ out.lates.map .late) w state h := by
    refine ⟨hk.config, hk.store, hk.holdback, hk.lateness, hk.capped, ?_, ?_, hk.openAt⟩
    · rw [hc, Log.emitted_append, show Log.emitted c (out.lates.map .late) = [] by
        simp [Log.emitted, Log.finals_late], append_nil]
      exact hk.balanced
    · rw [hc, Log.finals_append, Log.finals_late, append_nil]
      exact hk.finals
  obtain ⟨-, rfl, rfl⟩ | ⟨wm, closed, hwm, hcl, rfl⟩ := emitWindow_ok hf he
  · refine ⟨state, h, hl, ?_, ?_⟩
    · simp [Log.lates, filterMap_map]
    · simp [Log.withoutWindow, Log.unplaced]
  · obtain ⟨state', h', hk', hn, hpl⟩ := closeAt_kept het hl (hp wm hwm) hcl
    refine ⟨state', h', by simpa using hk', ?_, ?_⟩
    · rw [Log.lates, filterMap_append, show closed.filterMap _ = [] from hn]
      simp [filterMap_map]
    · rw [Log.withoutWindow, filterMap_append, show closed.filterMap _ = [] from hpl]
      simp [Log.unplaced]

variable {call : WatermarkHub → Result (Option ℤ) × WatermarkHub}

theorem onHub_kept (hL : 0 ≤ (c.spec.latenessMicros : ℤ))
    (hk : Kept c size log w state h) (hc : w.onHub call = (.ok out, w')) :
    ∃ h', Kept c size log w' state h' ∧ out.finals = [] ∧ out.lates = [] ∧
      ∀ q, out.pendingClose = some q → h'.Within q := by
  obtain ⟨pending, h', ha, rfl, rfl⟩ := onHub_ok hk.holdback hc
  obtain ⟨hl, ho, hca, hp, -⟩ := ha.kept (hk.lateness ▸ hL) hk.capped
  exact ⟨h', ⟨hk.config, hk.store, rfl, hl.trans hk.lateness, hca,
    ho ▸ hk.balanced, hk.finals, ho ▸ hk.openAt⟩, rfl, rfl, hp⟩

theorem emitted_kept (het : c.spec.kind.usesEventTime = true)
    (hL : 0 ≤ (c.spec.latenessMicros : ℤ)) (hk : Kept c size log w state h)
    (he : emitted d (w.onHub call) = .ok (sent, w')) :
    ∃ state' h', Kept c size (log ++ sent) w' state' h' ∧ Log.lates sent = Log.withoutWindow c sent := by
  obtain ⟨out, w₁, hc, he⟩ := emitted_ok he
  obtain ⟨h₁, hk₁, hf, hl, hp⟩ := onHub_kept hL hk hc
  obtain ⟨state', h', hk', hs, hpl⟩ := emitWindow_kept het hk₁ hf hp he
  exact ⟨state', h', hk', by rw [hs, hl, hpl]⟩

/-- **What an input keeps.** Its late rows are those without an open window. -/
theorem step_kept {input : Input} (hki : c.spec.kind.etWindow = some (size, slide))
    (hL : 0 ≤ (c.spec.latenessMicros : ℤ)) (hk : Kept c size log w state h) (hs : step d w input = .ok (sent, w')) :
    ∃ state' h', Kept c size (log ++ sent) w' state' h' ∧ Log.lates sent = Log.withoutWindow c sent := by
  have het := WindowKind.usesEventTime_of_etWindow hki
  have he' : w.spec.kind.usesEventTime = true := by rw [hk.config]; exact het
  cases input with
  | batch rows now leases =>
    rw [step, emitDue_ok he'] at hs
    obtain ⟨_, ⟨⟩, hs⟩ := bind_eq_ok.mp hs
    obtain ⟨⟨out, w₂⟩, he, hs⟩ := bind_eq_ok.mp hs
    obtain ⟨emission, w₁, hr, he⟩ := emitted_ok he
    obtain ⟨state₁, h₁, hk₁, hf, hl, hp⟩ := onRows_kept hki hL hk rfl
      (by simp [WindowEmission.none]) hr
    obtain ⟨state', h', hk', hse, hpl⟩ := emitWindow_kept het hk₁ hf hp he
    have hwm : w.wmOut = h.wmOut := by simp [wmOut, hk.holdback]
    simp only [hwm, nil_append] at hs
    cases hs
    refine ⟨state', h', by simpa using hk', ?_⟩
    rw [Log.lates, Log.withoutWindow, filterMap_append, filterMap_append,
      show out.filterMap (Log.unplaced c) = [] from hpl, append_nil,
      show out.filterMap _ = emission.lates from hse, hl]
    simp [Log.withoutWindow, WindowEmission.none]
  | watermark id wm | idle id | active id => exact emitted_kept het hL hk hs
  | finish =>
    simp only [step, finishInput] at hs
    rcases ha : w.hub.markActive .single with ⟨_ | _, hub⟩ <;> rw [ha] at hs
    · simp [emitted] at hs
    · have hk₁ : Kept c size log { w with hub } state h :=
        ⟨hk.config, hk.store, hk.holdback, hk.lateness, hk.capped, hk.balanced,
          hk.finals, hk.openAt⟩
      exact emitted_kept het hL hk₁ hs
  | tick now =>
    simp only [step, emitDue_ok he'] at hs
    cases hs
    exact ⟨state, h, by simpa using hk, rfl⟩

theorem newHoldback_ok {holdback : Option OutputHoldback} (het : spec.kind.usesEventTime = true)
    (hh : newHoldback spec = .ok holdback) : 0 ≤ (spec.latenessMicros : ℤ) ∧
      holdback = some { latenessMicros := spec.latenessMicros, wmIn := none, wmOut := none } := by
  rw [newHoldback, if_pos het, OutputHoldback.new] at hh
  split_ifs at hh with hn
  · simp [Except.map] at hh
  · exact ⟨not_lt.mp hn, (Except.ok.inj hh).symm⟩

theorem new_kept {operator budgetKeys maxKeys maxTimers : ℕ} {input : Schema} {external : Bool}
    (hk : spec.kind.etWindow = some (size, slide))
    (hn : new operator spec input budgetKeys maxKeys maxTimers external leases = .ok w) :
    w.spec = spec ∧ 0 ≤ (spec.latenessMicros : ℤ) ∧ ∃ state, Kept w.toWindowConfig size [] w state
        { latenessMicros := spec.latenessMicros, wmIn := none, wmOut := none } := by
  have het := WindowKind.usesEventTime_of_etWindow hk
  obtain ⟨hsp, hs, hh, -, hi, -⟩ := new_ok hn
  obtain ⟨state, hs, hen⟩ := newStore_ok (fun size h => by simp [h, WindowKind.etWindow] at hk) hs
  obtain ⟨hL, hh⟩ := newHoldback_ok het hh
  refine ⟨hsp, hL, state, rfl, hs, hh, by rw [hsp], by rintro _ ⟨⟩, ?_, by simp [Log.finals], by rintro _ ⟨⟩⟩
  have hem : ∀ k, state.entries.get? k = none := fun k => by rw [hen, SortedMap.get?_empty]
  refine ⟨⟨fun {k e} he => ?_, fun {stop k key} => ?_⟩, fun {k e} he => ?_, fun {p} _ _ => ?_, ?_, ?_, ?_⟩
  · simp [windows, hem] at he
  · simp [windows, hem, hi]
  · simp [windows, hem] at he
  · simp [windows, hem, WindowConfig.Accumulated, Log.content]
  all_goals simp [Log.emitted, Log.finals]

end Kept

/-- **What a run keeps.** -/
theorem run_kept {operator budgetKeys maxKeys maxTimers : ℕ} {input : Schema} {external : Bool}
    {w₀ w : WindowOperator} {inputs : List Input} {seen : List Report}
    (hn : new operator spec input budgetKeys maxKeys maxTimers external leases = .ok w₀)
    (hk : spec.kind.etWindow = some (size, slide)) (hr : run d w₀ inputs = .ok (seen, w)) :
    (∃ state h, Kept w₀.toWindowConfig size seen w state h) ∧
      Log.lates seen = Log.withoutWindow w₀.toWindowConfig seen := by
  obtain ⟨hsp, hL, state₀, hk₀⟩ := new_kept hk hn
  rw [← hsp] at hk hL
  let I := fun log w => (∃ state h, Kept w₀.toWindowConfig size log w state h) ∧
    Log.lates log = Log.withoutWindow w₀.toWindowConfig log
  have hst : I [] w₀ := ⟨⟨state₀, _, hk₀⟩, rfl⟩
  refine Machine.runOk_induction (G := fun _ => True) (I := I) ?_ (by simp) hst hr
  rintro log w input sent w' - hste ⟨⟨state, h, hke⟩, hl⟩
  obtain ⟨state', h', hk', hs⟩ := step_kept hk hL hke hste
  refine ⟨⟨state', h', hk'⟩, ?_⟩
  rw [Log.lates, Log.withoutWindow, filterMap_append, filterMap_append]
  exact congrArg₂ (· ++ ·) hl hs

/-- **Exactly once.** After any run without errors of a tumbling or hopping window over event
time: the late rows are those that found none of their windows open; no window was sent
twice; every final carries the fold of the rows its window was given, and was sent with the input
watermark past its end by the lateness; a window that was not sent holds the fold of its
rows, and one that was sent holds nothing. -/
theorem exactly_once {operator budgetKeys maxKeys maxTimers : ℕ} {spec : WindowSpec} {input : Schema}
    {external : Bool} {leases : Leases} {size : Int64} {slide : Option Int64} {d : Downstream}
    {w₀ w : WindowOperator} {inputs : List Input} {seen : List Report}
    (hnew : new operator spec input budgetKeys maxKeys maxTimers external leases = .ok w₀)
    (hkind : spec.kind.etWindow = some (size, slide)) (hrun : run d w₀ inputs = .ok (seen, w)) :
    Log.lates seen = Log.withoutWindow w₀.toWindowConfig seen ∧ (Log.emitted w₀.toWindowConfig seen).Nodup ∧
      (∀ f ∈ Log.finals seen, w₀.IsFinal size (Log.content w₀.toWindowConfig seen) f.2 f.1) ∧
      ∃ state, w.store = .tumble state ∧ ∀ p : Bytes × ℤ, fitsI64 p.2 = true →
        if p ∈ Log.emitted w₀.toWindowConfig seen then state.entries.get? (etKeyBytes p.1 p.2) = none
        else w₀.Accumulated (Log.content w₀.toWindowConfig seen p) (state.entries.get? (etKeyBytes p.1 p.2)) := by
  obtain ⟨⟨state, h, hk⟩, hl⟩ := run_kept hnew hkind hrun
  refine ⟨hl, hk.balanced.once, hk.finals, state, hk.store, fun p hp => ?_⟩
  split_ifs with hm
  · exact hk.balanced.gone hm
  · exact hk.balanced.folded hp hm

/-! ### A tumbling window -/

def sampleSchema : Schema := { fields := [⟨"k", .int64, false⟩, ⟨"t", .int64, false⟩] }

def sampleRow (t : Int64) : Row := ⟨[.int64 1, .int64 t]⟩

def sampleSpec (lateness : Int64) : WindowSpec :=
  (WindowSpec.new (.tumblingEventTime 10) ["k"]
    [{ func := .count, input := none, aliasName := "n", countStar := true }]).eventTime "t" lateness

def sampleDownstream : Downstream :=
  { maxItems := 8, maxBytes := 1000, sizes := ⟨fun _ _ => 1, fun _ => 1, fun _ => 1⟩,
    rowBytes := fun _ => 1, leases := fun _ => .all }

/-- A window without lateness that sees the times itself. -/
def sampleTumble : WindowOperator := value (new 0 (sampleSpec 0) sampleSchema 100 100 100 false .all) (by decide)

/-- Two rows of one window around one of the next; then one that is late. -/
def sampleInputs : List Input :=
  [.batch [sampleRow 5, sampleRow 12, sampleRow 7] 0 fun _ => .all, .batch [sampleRow 4] 0 fun _ => .all]

def sampleRun : List Report × WindowOperator := value (run sampleDownstream sampleTumble sampleInputs) (by decide)

theorem exactly_once_sample :
    (Log.finals sampleRun.1).map (fun f => ((finalOf 1 f.1).map (·.2), f.2)) = [(some (0, 10), some 12)] ∧
      (Log.withoutWindow sampleTumble.toWindowConfig sampleRun.1).map (·.values.length) = [2] ∧
      (Log.emitted sampleTumble.toWindowConfig sampleRun.1).Nodup ∧
      ∀ f ∈ Log.finals sampleRun.1,
        sampleTumble.IsFinal 10 (Log.content sampleTumble.toWindowConfig sampleRun.1) f.2 f.1 := by
  have hn : new 0 (sampleSpec 0) sampleSchema 100 100 100 false .all = .ok sampleTumble := eq_value _
  have hr : run sampleDownstream sampleTumble sampleInputs = .ok (sampleRun.1, sampleRun.2) := eq_value (by decide)
  obtain ⟨-, ho, hf, -⟩ := exactly_once hn rfl hr
  refine ⟨by decide, ?_, ho, hf⟩
  decide

/-- **The index is that of the store.** Between two inputs of such a run each stored window is listed once, under its end
and key, and nothing else is. No stored window ends by the output watermark, which is one the input watermark allows. -/
theorem index_exact {operator budgetKeys maxKeys maxTimers : ℕ} {spec : WindowSpec} {input : Schema}
    {external : Bool} {leases : Leases} {size : Int64} {slide : Option Int64} {d : Downstream}
    {w₀ w : WindowOperator} {inputs : List Input} {seen : List Report}
    (hnew : new operator spec input budgetKeys maxKeys maxTimers external leases = .ok w₀)
    (hkind : spec.kind.etWindow = some (size, slide)) (hrun : run d w₀ inputs = .ok (seen, w)) :
    ∃ state h, w.store = .tumble state ∧ w.holdback = some h ∧
      (∀ stop k key, w.closedIndex.get? (toLex (stop, k)) = some key ↔
        ∃ e, state.entries.get? k = some e ∧ e.key = key ∧ e.value.windowEnd = stop) ∧
      ∀ b, h.wmOut = some b → (∃ i, h.wmIn = some i ∧ b ≤ h.cap i) ∧
        ∀ k e, state.entries.get? k = some e → b < e.value.windowEnd := by
  obtain ⟨⟨state, h, hk⟩, -⟩ := run_kept hnew hkind hrun
  refine ⟨state, h, hk.store, hk.holdback, fun _ _ _ => hk.balanced.indexed.listed, fun b hb => ?_⟩
  exact ⟨(hk.capped b hb).1, hk.openAt b hb⟩

theorem index_exact_sample : ∃ state, sampleRun.2.store = .tumble state ∧
    ∀ stop k key, sampleRun.2.closedIndex.get? (toLex (stop, k)) = some key ↔
      ∃ e, state.entries.get? k = some e ∧ e.key = key ∧ e.value.windowEnd = stop := by
  have hn : new 0 (sampleSpec 0) sampleSchema 100 100 100 false .all = .ok sampleTumble := eq_value _
  have hr : run sampleDownstream sampleTumble sampleInputs = .ok (sampleRun.1, sampleRun.2) := eq_value (by decide)
  obtain ⟨state, _, hs, -, hi, -⟩ := index_exact hn rfl hr
  exact ⟨state, hs, hi⟩

def sampleExternal : WindowOperator := value (new 0 (sampleSpec 100) sampleSchema 100 100 100 true .all) (by decide)

/-- **A final that is sent early.** With watermarks from outside a row at -5 opens the window
from -10 to 0. The output watermark is never negative, so that an input watermark of 0 closes it,
though the lateness is 100. -/
theorem early_final : ∃ seen w, run sampleDownstream sampleExternal
        [.batch [sampleRow (-5)] 0 fun _ => .all, .watermark .single 0] = .ok (seen, w) ∧
      (Log.finals seen).map (fun f => ((finalOf 1 f.1).map (·.2), f.2)) = [(some (-10, 0), some 0)] ∧
      ¬ (0 : ℤ) ≥ 0 + (sampleSpec 100).latenessMicros := by
  let r := value (run sampleDownstream sampleExternal
    [.batch [sampleRow (-5)] 0 fun _ => .all, .watermark .single 0]) (by decide)
  exact ⟨r.1, r.2, eq_value (by decide), by decide, by decide⟩

end WindowOperator

end Sparrow.Runtime
