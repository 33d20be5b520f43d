import Sparrow.Runtime.WindowExactlyOnce

/-!
# What batches have to do with the results

The output watermark of a window only advances between batches. Where a batch ends
thus decides which windows a later row finds closed, and one sequence of rows cut in two ways
may give different results (`cut_matters`). That is the only influence: the hub and the input
watermark after a sequence of rows do not depend on the cut, the output watermark after a batch
is what they allow, and the windows sent by then are those that have a row and end by it.

## What is proved

* `batching` — the results, for two cuts of one sequence of rows.
* `Timed.advances` — within a batch, the pending close is what the input watermark allows.
-/

namespace Sparrow.Runtime

open Library Model Plan OpenWindows List

variable {base before : Option ℤ} {out : WindowEmission} {d : Downstream}

namespace WindowOperator

/-! ### The clock of a window -/

/-- The input watermark after the hub reports `progress`. -/
def laterWm (wmIn : Option ℤ) : Option ℤ → Option ℤ
  | none => wmIn
  | some wm => if wmIn.any fun prev => wm < prev then wmIn else some wm

def watch (c : WindowConfig) (now : ℤ) (clock : WatermarkHub × Option ℤ) (row : Row) : WatermarkHub × Option ℤ :=
  match c.rowEventTime row with
  | .error _ => clock
  | .ok ts =>
    if c.isFuture ts now then clock
    else
      let hub := if c.externalWatermarks then clock.1 else (clock.1.observeEvent .single ts now).2
      (hub, laterWm clock.2 hub.progress)

/-- Within a batch that began at the input watermark `base`: the output watermark is still the
one allowed then, and what is pending is what is allowed now. -/
structure Timed (base pending : Option ℤ) (h : OutputHoldback) : Prop where
  out : h.wmOut = base.map h.cap
  grown : ∀ i₀, base = some i₀ → ∃ i, h.wmIn = some i ∧ i₀ ≤ i
  pending : (pending = none ∧ h.wmIn = base) ∨ ∃ i, h.wmIn = some i ∧ pending = some (h.cap i)

variable {h : OutputHoldback}

theorem Timed.start (ho : h.wmOut = h.wmIn.map h.cap) : Timed h.wmIn none h :=
  ⟨ho, fun i₀ hi₀ => ⟨i₀, hi₀, le_rfl⟩, .inl ⟨rfl, rfl⟩⟩

variable {h' : OutputHoldback} {p : Option ℤ}

theorem Timed.onWmIn {wm : ℤ} (ht : Timed base before h)
    (hL : 0 ≤ (h.latenessMicros : ℤ)) (hon : h.onWmIn wm = (.ok p, h')) :
    h'.latenessMicros = h.latenessMicros ∧ h'.wmIn = laterWm h.wmIn (some wm) ∧
      Timed base (laterClose before p) h' := by
  unfold OutputHoldback.onWmIn at hon
  split_ifs at hon with hl
  · -- the watermark goes back: nothing moves, and the present output watermark is proposed again
    obtain ⟨rfl, rfl⟩ : h.wmOut = p ∧ h = h' := by simpa using hon
    refine ⟨rfl, (if_pos hl).symm, ht.out, ht.grown, ?_⟩
    obtain ⟨rfl, hba⟩ | ⟨i, hi, rfl⟩ := ht.pending
    · rw [laterClose, ht.out, ← hba]
      cases hin : h.wmIn with
      | none => exact .inl ⟨rfl, rfl⟩
      | some i => exact .inr ⟨i, rfl, rfl⟩
    · refine .inr ⟨i, hi, ?_⟩
      cases hb : base with
      | none => rw [ht.out, hb]; rfl
      | some i₀ =>
        obtain ⟨i', hi', hle⟩ := ht.grown i₀ hb
        obtain rfl : i = i' := by simpa [hi] using hi'
        rw [ht.out, hb, Option.map_some, laterClose, max_eq_left (h.cap_mono hle)]
  · have hup : ∀ i, h.wmIn = some i → i ≤ wm := fun i hi => by simpa [hi] using hl
    dsimp only at hon
    rw [OutputHoldback.holdbackWmOut_ok hL] at hon
    simp only [Prod.mk.injEq] at hon
    obtain ⟨hp, rfl⟩ := hon
    have hba : ∀ i₀, base = some i₀ → i₀ ≤ wm := by
      intro i₀ hi₀
      obtain ⟨i, hi, hle⟩ := ht.grown i₀ hi₀
      exact hle.trans (hup i hi)
    -- what is proposed is what the new watermark allows
    obtain rfl : some (h.cap wm) = p := by
      cases hb : base with
      | none => simpa [ht.out, hb] using hp
      | some i₀ =>
        have hle := h.cap_mono (hba i₀ hb)
        simpa [ht.out, hb, not_lt.mpr hle] using hp
    refine ⟨rfl, (if_neg hl).symm, ht.out, fun i₀ hi₀ => ⟨wm, rfl, hba i₀ hi₀⟩, .inr ⟨wm, rfl, ?_⟩⟩
    obtain ⟨rfl, -⟩ | ⟨i, hi, rfl⟩ := ht.pending
    · rfl
    · exact congrArg some (max_eq_right (h.cap_mono (hup i hi)))

theorem Timed.advances {hub : WatermarkHub} (ht : Timed base before h)
    (hL : 0 ≤ (h.latenessMicros : ℤ)) (ha : Advances hub h p h') :
    h'.latenessMicros = h.latenessMicros ∧ h'.wmIn = laterWm h.wmIn hub.progress ∧
      Timed base (laterClose before p) h' := by
  unfold Advances at ha
  cases hp : hub.progress with
  | none =>
    rw [hp] at ha
    obtain ⟨rfl, rfl⟩ := ha
    refine ⟨rfl, rfl, ?_⟩
    cases before <;> exact ht
  | some wm =>
    rw [hp] at ha
    exact ht.onWmIn hL ha

theorem Timed.close {pending : Option ℤ} (ht : Timed base pending h) :
    (pending = none → h.wmOut = h.wmIn.map h.cap) ∧ ∀ p, pending = some p → some p = h.wmIn.map h.cap := by
  obtain ⟨rfl, hb⟩ | ⟨i, hi, rfl⟩ := ht.pending
  · exact ⟨fun _ => hb ▸ ht.out, nofun⟩
  · refine ⟨nofun, ?_⟩
    rintro p ⟨⟩
    rw [hi]
    rfl

section Clock

variable {c : WindowConfig} {size : Int64} {slide : Option Int64} {now : ℤ}
  {w w' : WindowOperator} {state : MemoryState TumbleEntry} {h : OutputHoldback}

/-- **The clock sees the rows, not the batches.** -/
theorem onRow_clock {leases : Leases} {row : Row} (hk : c.spec.kind.etWindow = some (size, slide))
    (hc : w.toWindowConfig = c) (hs : w.store = .tumble state) (hh : w.holdback = some h)
    (hL : 0 ≤ (h.latenessMicros : ℤ)) (ht : Timed base before h) (hr : w.onRow leases row now = (.ok out, w')) :
    ∃ state' h', w'.toWindowConfig = c ∧ w'.store = .tumble state' ∧ w'.holdback = some h' ∧
      h'.latenessMicros = h.latenessMicros ∧ (w'.hub, h'.wmIn) = watch c now (w.hub, h.wmIn) row ∧
      Timed base (laterClose before out.pendingClose) h' := by
  subst hc
  unfold watch
  obtain ⟨ts, scratch, hts, ⟨hf, rfl, rfl⟩ |
    ⟨hf, windows, hub, pending, h', o, ho, -, -, ha, rfl, rfl⟩⟩ :=
    onRow_ok hk hs hh hr
  · refine ⟨state, h, rfl, hs, hh, rfl, by simp [hts, hf], ?_⟩
    cases before <;> exact ht
  · obtain ⟨hl, hin, ht'⟩ := ht.advances hL ha
    have hhu : (if w.externalWatermarks then w.hub else (w.hub.observeEvent .single ts now).2) = hub := by
      unfold Observes at ho
      split_ifs at ho ⊢ with he
      · exact ho.symm
      · obtain ⟨p, hp⟩ := ho
        rw [hp]
    exact ⟨_, h', rfl, rfl, rfl, hl, by simp [hts, hf, hhu, hin], ht'⟩

theorem onRows_clock {leases : ℕ → Leases} {rows : List Row} {i : ℕ} {before : WindowEmission}
    (hk : c.spec.kind.etWindow = some (size, slide)) (hco : w.toWindowConfig = c)
    (hs : w.store = .tumble state) (hh : w.holdback = some h) (hL : 0 ≤ (h.latenessMicros : ℤ))
    (ht : Timed base before.pendingClose h) (hr : w.onRows leases now i before rows = (.ok out, w')) :
    ∃ h', w'.holdback = some h' ∧ (w'.hub, h'.wmIn) = rows.foldl (watch c now) (w.hub, h.wmIn) ∧
      Timed base out.pendingClose h' := by
  induction rows generalizing w state h i before with
  | nil =>
    obtain ⟨rfl, rfl⟩ : before = out ∧ w = w' := by simpa [onRows] using hr
    exact ⟨h, hh, rfl, ht⟩
  | cons row rest ih =>
    rw [onRows] at hr
    rcases hro : w.onRow (leases i) row now with ⟨_ | _, w₁⟩ <;> rw [hro] at hr
    · simp at hr
    · obtain ⟨state₁, h₁, hc₁, hs₁, hh₁, hl, hc, ht₁⟩ :=
        onRow_clock hk hco hs hh hL ht hro
      obtain ⟨h', hh', hc', ht'⟩ := ih hc₁ hs₁ hh₁ (hl ▸ hL) ht₁ hr
      exact ⟨h', hh', by rw [hc', hc, foldl_cons], ht'⟩

end Clock

end WindowOperator

/-! ### What was sent, from what was given -/

namespace Log

open WindowOperator

/-- The row of a report, with the windows it was folded into. -/
def placing (c : WindowConfig) : Report → Option (Row × List (ℤ × ℤ))
  | .row row now out => some (row, c.opened row now out)
  | _ => none

def placed (c : WindowConfig) (log : List Report) : List (Row × List (ℤ × ℤ)) := log.filterMap (placing c)

theorem content_of_placed (c : WindowConfig) (log : List Report) (p : Bytes × ℤ) :
    content c log p = (placed c log).filterMap fun r =>
      if p.1 = encodeKeyValues (c.groupKey r.1) ∧ p.2 ∈ r.2.map Prod.fst then some r.1 else none := by
  rw [content, placed, filterMap_filterMap]
  refine filterMap_congr fun r _ => ?_
  cases r <;> rfl

theorem withoutWindow_of_placed {c : WindowConfig} {log : List Report} {now : ℤ}
    (hn : ∀ row t out, .row row t out ∈ log → t = now) :
    withoutWindow c log = (placed c log).filterMap fun r =>
      if c.dropped r.1 now = false ∧ r.2 = [] then some r.1 else none := by
  rw [withoutWindow, placed, filterMap_filterMap]
  refine filterMap_congr fun r hr => ?_
  cases r with
  | row row t out =>
    obtain rfl := hn row t out hr
    rfl
  | _ => rfl

end Log

namespace WindowConfig

/-- The final row of a window, if it has a row and the fold succeeds. -/
def finalRow (c : WindowConfig) (size : Int64) (content : Bytes × ℤ → List Row) (p : Bytes × ℤ) : Option Row := do
  let first ← (content p).head?
  let accs ← (c.emptyAccs >>= fun empty => c.foldRows empty (content p)).toOption
  return resultRow (c.groupKey first) p.2 (satAddI p.2 size) accs

theorem IsFinal.finalRow {c : WindowConfig} {size : Int64} {content : Bytes × ℤ → List Row}
    {wmIn : Option ℤ} {row : Row} (h : c.IsFinal size content wmIn row) :
    ∃ p, c.windowOf row = some p ∧ c.finalRow size content p = some row ∧ content p ≠ [] := by
  obtain ⟨first, start, accs, rfl, hfi, hf, ⟨empty, he, hr⟩, -, -⟩ := h
  refine ⟨_, by rw [windowOf, hfi]; rfl, ?_, ?_⟩
  · simp [WindowConfig.finalRow, hf, he, hr, Except.toOption, bind, Except.bind]
  · intro hn
    simp [hn] at hf

end WindowConfig

namespace WindowOperator

section Sent

variable {c : WindowConfig} {size : Int64} {slide : Option Int64} {log : List Report}
  {w : WindowOperator} {state : MemoryState TumbleEntry} {h : OutputHoldback} {p : Bytes × ℤ}

theorem fits_of_content (hk : c.spec.kind.etWindow = some (size, slide))
    (hp : Log.content c log p ≠ []) : fitsI64 p.2 = true := by
  obtain ⟨row, hro⟩ := exists_mem_of_ne_nil _ hp
  obtain ⟨r, -, hr⟩ := List.mem_filterMap.mp hro
  cases r with
  | row row now out =>
    have han := (Option.ite_none_right_eq_some.mp hr).1
    obtain ⟨q, hq, hqp⟩ := List.mem_map.mp han.2
    rw [← hqp]
    unfold WindowConfig.opened at hq
    split_ifs at hq
    · cases hq
    · have hq := (List.mem_filter.mp hq).1
      unfold WindowConfig.windowsOf at hq
      rw [hk] at hq
      cases hts : c.rowEventTime row with
      | error e => simp [hts] at hq
      | ok ts =>
        cases ha : c.assigned ts size slide with
        | error e => simp [hts, ha] at hq
        | ok windows => exact (assigned_ok ha).fits q (by simpa [hts, ha] using hq)
  | _ => cases hr

/-- **The windows sent** are those that have a row and end by the output watermark. -/
theorem mem_emitted_iff (hki : c.spec.kind.etWindow = some (size, slide))
    (hk : Kept c size log w state h) :
    p ∈ Log.emitted c log ↔ Log.content c log p ≠ [] ∧ ∃ b, h.wmOut = some b ∧ satAddI p.2 size ≤ b := by
  constructor
  · intro hp
    refine ⟨?_, (hk.balanced.closed hp).2⟩
    obtain ⟨f, hf, hfp⟩ := List.mem_filterMap.mp hp
    obtain ⟨q, hq, -, hne⟩ := (hk.finals f hf).finalRow
    obtain rfl : q = p := Option.some.inj (hq.symm.trans hfp)
    exact hne
  · rintro ⟨hne, b, hb, hle⟩
    by_contra hn
    have hfi := fits_of_content hki hne
    have hfo := hk.balanced.folded hfi hn
    cases hg : (w.windows state).entries.get? (etKeyBytes p.1 p.2) with
    | none =>
      rw [hg] at hfo
      exact hne hfo
    | some e =>
      -- a window under this key has this start, so that it ends after the watermark
      have hw := hk.balanced.window hg
      obtain ⟨group, hke, -⟩ := hw.key
      have hby := hk.balanced.indexed.keyed hg
      rw [hke, encodeKeyValues_etStateKey] at hby
      have hs := (etKeyBytes_inj hw.start hfi hby).2
      have hlt := hk.openAt b hb _ _ hg
      rw [hw.stop, hs] at hlt
      omega

theorem finals_eq (hk : Kept c size log w state h) :
    (Log.finals log).map Prod.fst = (Log.emitted c log).filterMap (c.finalRow size (Log.content c log)) := by
  rw [Log.emitted, filterMap_filterMap, ← filterMap_eq_map]
  refine filterMap_congr fun f hf => ?_
  obtain ⟨p, hp, hr, -⟩ := (hk.finals f hf).finalRow
  simp [hp, hr]

variable {w' : WindowOperator} {sent : List Report}

/-- What is sent after the rows of a batch names no row, leaves the hub, and makes the output
watermark what is allowed. -/
theorem emitWindow_timed (het : c.spec.kind.usesEventTime = true)
    (hk : Kept c size log w state h) (hf : out.finals = []) (ht : Timed base out.pendingClose h)
    (he : w.emitWindow d out = .ok (sent, w')) :
    w'.hub = w.hub ∧ (∃ h', w'.holdback = some h' ∧ h'.wmIn = h.wmIn ∧ h'.wmOut = h'.wmIn.map h'.cap) ∧
      ∀ r ∈ sent, Log.placing c r = none := by
  have hc := ht.close
  have hl : ∀ r ∈ out.lates.map Report.late, Log.placing c r = none := by
    intro r hr
    obtain ⟨row, -, rfl⟩ := List.mem_map.mp hr
    rfl
  obtain ⟨hn, rfl, rfl⟩ | ⟨wm, closed, hwm, hat, rfl⟩ := emitWindow_ok hf he
  · exact ⟨rfl, ⟨h, hk.holdback, rfl, hc.1 hn⟩, hl⟩
  · have he' : w.spec.kind.usesEventTime = true := by rw [hk.config]; exact het
    obtain ⟨o, batches, -, -, rfl, rfl⟩ := closeAt_ok he' hk.store hk.balanced.indexed hk.holdback hat
    refine ⟨rfl, ⟨_, rfl, rfl, hc.2 wm hwm⟩, fun r hr => ?_⟩
    obtain hr | hr := List.mem_append.mp hr
    · exact hl r hr
    · obtain hr | hr := List.mem_append.mp hr
      · obtain ⟨b, -, rfl⟩ := List.mem_map.mp hr
        rfl
      · rw [List.mem_singleton.mp hr]
        rfl

/-- **A batch moves the clock as its rows do.** -/
theorem step_timed {rows : List Row} {now : ℤ} {leases : ℕ → Leases}
    (hki : c.spec.kind.etWindow = some (size, slide)) (hL : 0 ≤ (c.spec.latenessMicros : ℤ))
    (hk : Kept c size log w state h) (ho : h.wmOut = h.wmIn.map h.cap)
    (hs : step d w (.batch rows now leases) = .ok (sent, w')) :
    (∃ h', w'.holdback = some h' ∧ h'.wmOut = h'.wmIn.map h'.cap ∧
        (w'.hub, h'.wmIn) = rows.foldl (watch c now) (w.hub, h.wmIn)) ∧
      Log.placed c sent = rows.map (fun row => (row, c.opened row now h.wmOut)) ∧
      ∀ row t out, .row row t out ∈ sent → t = now := by
  have het := WindowKind.usesEventTime_of_etWindow hki
  have he' : w.spec.kind.usesEventTime = true := by rw [hk.config]; exact het
  rw [step, emitDue_ok he'] at hs
  obtain ⟨_, ⟨⟩, hs⟩ := bind_eq_ok.mp hs
  obtain ⟨⟨out, w₂⟩, he, hs⟩ := bind_eq_ok.mp hs
  obtain ⟨emission, w₁, hr, he⟩ := emitted_ok he
  obtain ⟨state₁, h₁, hk₁, hf, -, -⟩ := onRows_kept hki hL hk rfl
    (by simp [WindowEmission.none]) hr
  obtain ⟨h₂, hh₂, hc, ht⟩ := onRows_clock hki hk.config hk.store hk.holdback
    (hk.lateness ▸ hL) (Timed.start ho) hr
  obtain rfl : h₁ = h₂ := Option.some.inj (hk₁.holdback.symm.trans hh₂)
  obtain ⟨hh, ⟨h', hh', hin, ho'⟩, hn⟩ := emitWindow_timed het hk₁ hf ht he
  have hwm : w.wmOut = h.wmOut := by simp [wmOut, hk.holdback]
  simp only [hwm, nil_append] at hs
  cases hs
  refine ⟨⟨h', hh', ho', by rw [hh, hin, hc]⟩, ?_, ?_⟩
  · rw [Log.placed, filterMap_append, List.filterMap_eq_nil_iff.mpr hn, append_nil,
      filterMap_map, ← filterMap_eq_map]
    rfl
  · intro row t o hm
    obtain hm | hm := List.mem_append.mp hm
    · obtain ⟨r, -, heq⟩ := List.mem_map.mp hm
      cases heq
      rfl
    · cases hn _ hm

end Sent

/-- Batches of rows at one clock reading, with the credit for each. -/
def batchesAt (now : ℤ) (batches : List (List Row × (ℕ → Leases))) : List Input :=
  batches.map fun b => .batch b.1 now b.2

theorem run_timed {operator budgetKeys maxKeys maxTimers : ℕ} {spec : WindowSpec} {input : Schema} {external : Bool}
    {leases : Leases} {size : Int64} {slide : Option Int64} {w₀ w : WindowOperator} {now : ℤ}
    {batches : List (List Row × (ℕ → Leases))} {seen : List Report}
    (hn : new operator spec input budgetKeys maxKeys maxTimers external leases = .ok w₀)
    (hk : spec.kind.etWindow = some (size, slide)) (hr : run d w₀ (batchesAt now batches) = .ok (seen, w)) :
    ∃ state h, Kept w₀.toWindowConfig size seen w state h ∧ h.wmOut = h.wmIn.map h.cap ∧
      (w.hub, h.wmIn) = ((Log.placed w₀.toWindowConfig seen).map Prod.fst).foldl
        (watch w₀.toWindowConfig now) (w₀.hub, none) ∧
      ∀ row t out, .row row t out ∈ seen → t = now := by
  obtain ⟨hsp, hL, state₀, hk₀⟩ := new_kept hk hn
  rw [← hsp] at hk hL
  let I := fun log w => ∃ state h, Kept w₀.toWindowConfig size log w state h ∧ h.wmOut = h.wmIn.map h.cap ∧
    (w.hub, h.wmIn) = ((Log.placed w₀.toWindowConfig log).map Prod.fst).foldl
      (watch w₀.toWindowConfig now) (w₀.hub, none) ∧ ∀ row t out, .row row t out ∈ log → t = now
  have hst : I [] w₀ := ⟨state₀, _, hk₀, rfl, rfl, by simp⟩
  refine Machine.runOk_induction (G := fun a => ∃ rows leases, a = .batch rows now leases) (I := I) ?_ ?_
    hst hr
  · rintro log w _ sent w' ⟨rows, credit, rfl⟩ hs ⟨state, h, hke, ho, hc, hno⟩
    obtain ⟨state', h', hk', -⟩ := step_kept hk hL hke hs
    obtain ⟨⟨h'', hh'', ho', hc'⟩, hp, hn'⟩ := step_timed hk hL hke ho hs
    obtain rfl : h' = h'' := Option.some.inj (hk'.holdback.symm.trans hh'')
    refine ⟨state', h', hk', ho', ?_, fun row t o hm => ?_⟩
    · have hap : Log.placed w₀.toWindowConfig (log ++ sent) =
          Log.placed w₀.toWindowConfig log ++ Log.placed w₀.toWindowConfig sent := filterMap_append ..
      rw [hc', hc, hap, hp, map_append, foldl_append, map_map]
      simp [Function.comp_def]
    · obtain hm | hm := List.mem_append.mp hm
      exacts [hno row t o hm, hn' row t o hm]
  · intro a ha
    obtain ⟨b, -, rfl⟩ := List.mem_map.mp ha
    exact ⟨b.1, b.2, rfl⟩

/-- **Results do not depend on the batches beyond which windows rows find open.** Two runs over
batches of the same rows at one clock reading, in which every row finds the same windows
open, send the same finals and the same late rows. -/
theorem batching {operator budgetKeys maxKeys maxTimers : ℕ} {spec : WindowSpec} {input : Schema}
    {external : Bool} {leases : Leases} {size : Int64} {slide : Option Int64} {d d' : Downstream}
    {w₀ w w' : WindowOperator} {now : ℤ} {batches batches' : List (List Row × (ℕ → Leases))}
    {seen seen' : List Report}
    (hnew : new operator spec input budgetKeys maxKeys maxTimers external leases = .ok w₀)
    (hkind : spec.kind.etWindow = some (size, slide)) (hrun : run d w₀ (batchesAt now batches) = .ok (seen, w))
    (hrun' : run d' w₀ (batchesAt now batches') = .ok (seen', w'))
    (hsame : Log.placed w₀.toWindowConfig seen = Log.placed w₀.toWindowConfig seen') :
    ((Log.finals seen).map Prod.fst).Perm ((Log.finals seen').map Prod.fst) ∧ Log.lates seen = Log.lates seen' := by
  obtain ⟨hs, -, -⟩ := new_kept hkind hnew
  have hk₀ : w₀.spec.kind.etWindow = some (size, slide) := hs ▸ hkind
  obtain ⟨state, h, hk, ho, hcl, hn⟩ := run_timed hnew hkind hrun
  obtain ⟨state', h', hk', ho', hc', hn'⟩ := run_timed hnew hkind hrun'
  have hc : Log.content w₀.toWindowConfig seen = Log.content w₀.toWindowConfig seen' := by
    funext p
    rw [Log.content_of_placed, Log.content_of_placed, hsame]
  -- both clocks have seen the same rows
  have hwm : h.wmOut = h'.wmOut := by
    have hin : h.wmIn = h'.wmIn := by
      have := hcl.trans ((congrArg _ (congrArg _ hsame)).trans hc'.symm)
      exact (Prod.mk.inj this).2
    have hca : h.cap = h'.cap := by
      funext i
      rw [OutputHoldback.cap, OutputHoldback.cap, hk.lateness, hk'.lateness]
    rw [ho, ho', hin, hca]
  have he : (Log.emitted w₀.toWindowConfig seen).Perm (Log.emitted w₀.toWindowConfig seen') := by
    refine (perm_ext_iff_of_nodup hk.balanced.once hk'.balanced.once).mpr fun p => ?_
    rw [mem_emitted_iff hk₀ hk, mem_emitted_iff hk₀ hk', hc, hwm]
  constructor
  · rw [finals_eq hk, finals_eq hk', hc]
    exact he.filterMap _
  · rw [(run_kept hnew hkind hrun).2, (run_kept hnew hkind hrun').2,
      Log.withoutWindow_of_placed hn, Log.withoutWindow_of_placed hn', hsame]

/-- Rows at 5, 25 and `t`, the last in the same batch or in one of its own. -/
def sampleCut (t : Int64) (split : Bool) : List (List Row × (ℕ → Leases)) :=
  if split then [([sampleRow 5, sampleRow 25], fun _ => .all), ([sampleRow t], fun _ => .all)]
  else [([sampleRow 5, sampleRow 25, sampleRow t], fun _ => .all)]

/-- A last row at 26, which finds its window open either way. -/
def steadyRun (split : Bool) : List Report × WindowOperator :=
  Result.value (run sampleDownstream sampleTumble (batchesAt 0 (sampleCut 26 split))) (by
    cases split <;> decide)

theorem batching_sample :
    ((Log.finals (steadyRun true).1).map Prod.fst).Perm ((Log.finals (steadyRun false).1).map Prod.fst) ∧
      Log.lates (steadyRun true).1 = Log.lates (steadyRun false).1 := by
  have hn : new 0 (sampleSpec 0) sampleSchema 100 100 100 false .all = .ok sampleTumble := Result.eq_value _
  have hr : ∀ split, run sampleDownstream sampleTumble (batchesAt 0 (sampleCut 26 split)) =
      .ok ((steadyRun split).1, (steadyRun split).2) := fun split => Result.eq_value (by
    cases split <;> decide)
  exact batching hn rfl (hr true) (hr false) rfl

/-- A last row at 6, which finds its window closed if a batch ends before it. -/
def cutRun (split : Bool) : List Report × WindowOperator :=
  Result.value (run sampleDownstream sampleTumble (batchesAt 0 (sampleCut 6 split))) (by
    cases split <;> decide)

/-- **Where a batch ends can matter.** -/
theorem cut_matters :
    (∀ split, run sampleDownstream sampleTumble (batchesAt 0 (sampleCut 6 split)) = .ok (cutRun split)) ∧
      (sampleCut 6 true).flatMap Prod.fst = (sampleCut 6 false).flatMap Prod.fst ∧
      ¬ (Log.lates (cutRun true).1).Perm (Log.lates (cutRun false).1) := by
  refine ⟨fun split => Result.eq_value _, rfl, fun hp => ?_⟩
  have ht : (Log.lates (cutRun true).1).length = 1 := by decide
  have hf : (Log.lates (cutRun false).1).length = 0 := by decide
  have := hp.length_eq
  omega

end WindowOperator

end Sparrow.Runtime
