import Sparrow.Runtime.WindowDue
import Sparrow.Runtime.WindowLedger

/-!
# Tumbling and hopping windows over processing time

Calls of `on_batch` and `fire_due` with any clock readings, none of which fails. Each row is
given to the windows of the reading it is taken in at: for a hopping window the largest reading
so far, for a tumbling window the reading of the call. What has been sent is a list of parts, each
the rows that one final row is the fold of.

A hopping window never goes back, so that each of its windows is sent once. A tumbling window
does: after a step back it sends the open window of a key early, and opens it again when the clock
has caught up.
-/

namespace Sparrow.Model

/-- Size and slide of the kinds with accumulators over processing time. -/
def WindowKind.ptWindow : WindowKind → Option (Int64 × Option Int64)
  | .tumblingProcessingTime size => some (size, none)
  | .hoppingProcessingTime size slide => some (size, some slide)
  | _ => none

variable {kind : WindowKind}

theorem WindowKind.usesEventTime_of_ptWindow {window : Int64 × Option Int64}
    (h : kind.ptWindow = some window) : kind.usesEventTime = false := by
  cases kind <;> first | rfl | cases h

theorem WindowKind.isPtHopping_of_ptWindow {size : Int64} {slide : Option Int64}
    (h : kind.ptWindow = some (size, slide)) : kind.isPtHopping = slide.isSome := by
  cases kind <;> simp only [ptWindow, Option.some.injEq, Prod.mk.injEq, reduceCtorEq] at h <;>
    obtain ⟨-, rfl⟩ := h <;> rfl

end Sparrow.Model

namespace Sparrow.Runtime

open Library Model Plan OpenWindows SortedMap WindowKind List WindowOperator

/-! ### Windows and their keys -/

variable {e : Stored TumbleEntry} {row : Row} {k : Bytes} {start : ℤ} {rows : List Row} {out : WindowEmission}

namespace WindowConfig

variable (c : WindowConfig)

/-- The state key of a group's window: a tumbling window has one entry for a group. -/
def stateKey (group : List Scalar) (start : ℤ) : List Scalar :=
  if c.suffixedKey then etStateKey group start else group

def keyBytes (p : Bytes × ℤ) : Bytes := if c.suffixedKey then etKeyBytes p.1 p.2 else p.1

def windowAt (e : Stored TumbleEntry) : Bytes × ℤ :=
  (encodeKeyValues (c.groupOf e.key), e.value.windowStart)

variable {c : WindowConfig}

theorem groupOf_stateKey (group : List Scalar) (start : ℤ) : c.groupOf (c.stateKey group start) = group := by
  unfold groupOf stateKey
  split_ifs
  · simp [groupFromEtKey, etStateKey]
  · rfl

theorem encodeKeyValues_stateKey (group : List Scalar) (start : ℤ) :
    encodeKeyValues (c.stateKey group start) = c.keyBytes (encodeKeyValues group, start) := by
  unfold keyBytes stateKey
  split_ifs
  · exact encodeKeyValues_etStateKey group start
  · rfl

theorem keyBytes_inj {p q : Bytes × ℤ} (hp : fitsI64 p.2 = true) (hs : p.2 = q.2)
    (h : c.keyBytes p = c.keyBytes q) : p = q := by
  unfold keyBytes at h
  split_ifs at h
  · exact Prod.ext (etKeyBytes_inj hp (hs ▸ hp) h).1 hs
  · exact Prod.ext h hs

structure Placed (c : WindowConfig) (size : Int64) (e : Stored TumbleEntry) : Prop where
  key : ∃ group, e.key = c.stateKey group e.value.windowStart ∧ group.length = c.groupIdx.length
  start : fitsI64 e.value.windowStart = true
  stop : e.value.windowEnd = satAddI e.value.windowStart size

theorem Placed.keyBytes {size : Int64} (h : c.Placed size e) :
    encodeKeyValues e.key = c.keyBytes (c.windowAt e) := by
  obtain ⟨group, hk, -⟩ := h.key
  rw [windowAt, hk, encodeKeyValues_stateKey, groupOf_stateKey]

/-- What a final row is: the fold of the rows of a part, for its window. -/
def IsPart (c : WindowConfig) (size : Int64) (row : Row) (part : (Bytes × ℤ) × List Row) : Prop :=
  c.windowOf row = some part.1 ∧ part.2 ≠ [] ∧ ∃ key accs, encodeKeyValues key = part.1.1 ∧
    c.Folded part.2 accs ∧ row = resultRow key part.1.2 (satAddI part.1.2 size) accs

end WindowConfig

open WindowConfig

def sentTo (sent : List ((Bytes × ℤ) × List Row)) (p : Bytes × ℤ) : List Row :=
  (sent.filter fun s => s.1 = p).flatMap Prod.snd

theorem sentTo_concat (sent : List ((Bytes × ℤ) × List Row)) (q : Bytes × ℤ) (rows : List Row)
    (p : Bytes × ℤ) :
    sentTo (sent ++ [(q, rows)]) p = if q = p then sentTo sent p ++ rows else sentTo sent p := by
  unfold sentTo
  split_ifs with hq <;> simp [hq]

/-! ### The ledger -/

/-- The parts sent for a window, with what its entry holds, are the rows it was given. -/
structure Settled (c : WindowConfig) (size : Int64) (given : Bytes × ℤ → List Row)
    (sent : List ((Bytes × ℤ) × List Row)) (o : OpenWindows) : Prop where
  indexed : o.Indexed
  placed : ∀ {k e}, o.entries.get? k = some e → c.Placed size e
  held : ∀ {k e}, o.entries.get? k = some e → ∃ rest, rest ≠ [] ∧ c.Folded rest e.value.accs ∧
    given (c.windowAt e) = sentTo sent (c.windowAt e) ++ rest
  idle : ∀ {p}, fitsI64 p.2 = true → (∀ k e, o.entries.get? k = some e → c.windowAt e ≠ p) →
    given p = sentTo sent p

namespace Settled

variable {c : WindowConfig} {size : Int64} {given : Bytes × ℤ → List Row}
  {sent : List ((Bytes × ℤ) × List Row)} {o o' : OpenWindows}

section

variable (h : Settled c size given sent o)

include h

theorem key_eq (hg : o.entries.get? k = some e) :
    k = c.keyBytes (c.windowAt e) := (h.indexed.keyed hg).symm.trans (h.placed hg).keyBytes

theorem windowAt_ne {k' : Bytes} {e' : Stored TumbleEntry}
    (hg : o.entries.get? k = some e) (hg' : o.entries.get? k' = some e') (hne : k ≠ k') :
    c.windowAt e ≠ c.windowAt e' := by
  intro heq
  exact hne ((h.key_eq hg).trans (heq ▸ (h.key_eq hg').symm))

/-- **A row enters its window.** -/
theorem fold (hf : fitsI64 start = true)
    (hs : ∀ e, o.entries.get? (encodeKeyValues (c.stateKey (c.groupKey row) start)) = some e →
      e.value.windowStart = start)
    (hfo : Fold c row (c.stateKey (c.groupKey row) start) start (satAddI start size) o o') :
    Settled c size (addRow given (encodeKeyValues (c.groupKey row)) [start] row) sent o' := by
  have hi := h.indexed.fold hfo
  obtain ⟨ho, hu⟩ := hfo
  rename_i old index accs
  have hke : encodeKeyValues (c.stateKey (c.groupKey row) start) =
      c.keyBytes (encodeKeyValues (c.groupKey row), start) :=
    encodeKeyValues_stateKey _ _
  have hw : c.windowAt (withAccs old accs) = (encodeKeyValues (c.groupKey row), start) := by
    cases ho with
    | found hg =>
      have hold : c.windowAt old = (encodeKeyValues (c.groupKey row), start) :=
        keyBytes_inj (h.placed hg).start (hs old hg) ((h.key_eq hg).symm.trans hke)
      exact hold
    | fresh => exact Prod.ext (congrArg encodeKeyValues (groupOf_stateKey _ _)) rfl
  have hr : ∀ p, addRow given (encodeKeyValues (c.groupKey row)) [start] row p =
      if p = (encodeKeyValues (c.groupKey row), start) then given p ++ [row] else given p := by
    intro p
    simp [addRow, Prod.ext_iff]
  -- the other entries are those of other windows
  have hot : ∀ {k e}, k ≠ encodeKeyValues (c.stateKey (c.groupKey row) start) → o.entries.get? k = some e →
      c.windowAt e ≠ (encodeKeyValues (c.groupKey row), start) := by
    intro k e hk he heq
    exact hk ((h.key_eq he).trans (heq ▸ hke.symm))
  refine ⟨hi, ?_, ?_, ?_⟩
  · intro k e he
    obtain ⟨-, rfl⟩ | ⟨-, he⟩ := get?_insert_eq_some.mp he
    · cases ho with
      | found hg =>
        obtain ⟨hke, hst, hsto⟩ := h.placed hg
        exact ⟨hke, hst, hsto⟩
      | fresh => exact ⟨⟨_, rfl, by simp [groupKey]⟩, hf, rfl⟩
    · exact h.placed he
  · intro k e he
    obtain ⟨-, rfl⟩ | ⟨hk, he⟩ := get?_insert_eq_some.mp he
    · rw [hw, hr, if_pos rfl]
      cases ho with
      | found hg =>
        obtain ⟨rest, -, ⟨empty, hem, hro⟩, hgi⟩ := h.held hg
        have hold : c.windowAt old = (encodeKeyValues (c.groupKey row), start) := hw
        rw [hold] at hgi
        exact ⟨rest ++ [row], by simp, ⟨empty, hem, foldRows_concat hro hu⟩, by rw [hgi, append_assoc]⟩
      | fresh hg hem =>
        have hgi : given (encodeKeyValues (c.groupKey row), start) =
            sentTo sent (encodeKeyValues (c.groupKey row), start) :=
          h.idle hf fun k e he heq => by
            have hk : k = encodeKeyValues (c.stateKey (c.groupKey row) start) :=
              (h.key_eq he).trans (heq ▸ hke.symm)
            rw [hk, hg] at he
            cases he
        have hon : c.foldRows _ ([] ++ [row]) = .ok accs := foldRows_concat rfl hu
        exact ⟨[row], by simp, ⟨_, hem, hon⟩, by rw [hgi]⟩
    · rw [hr, if_neg (hot hk he)]
      exact h.held he
  · intro p hp hn
    have hne : (encodeKeyValues (c.groupKey row), start) ≠ p := hw ▸ hn _ _ (get?_insert_self _ _ _)
    rw [hr, if_neg (Ne.symm hne)]
    refine h.idle hp fun k e he => ?_
    by_cases hk : k = encodeKeyValues (c.stateKey (c.groupKey row) start)
    · cases ho with
      | found hg =>
        obtain rfl : old = e := by simpa [hk, hg] using he
        exact fun heq => hne (hw.symm.trans heq)
      | fresh hg =>
        rw [hk, hg] at he
        cases he
    · exact hn k e (by rw [get?_insert_of_ne _ _ hk]; exact he)

/-- **A window that is taken** is a part. -/
theorem take (hg : o.entries.get? k = some e) {key : List Scalar}
    (hke : encodeKeyValues key = encodeKeyValues (c.groupOf e.key)) (hl : key.length = c.groupIdx.length) :
    ∃ rest, c.IsPart size (resultRow key e.value.windowStart e.value.windowEnd e.value.accs)
      (c.windowAt e, rest) ∧
      Settled c size given (sent ++ [(c.windowAt e, rest)]) (o.remove k e.value.windowEnd) := by
  obtain ⟨rest, hne, hfo, hgi⟩ := h.held hg
  have hpl := h.placed hg
  have hf := finalOf_resultRow e.value.accs hl hpl.start
    (show fitsI64 (satAddI e.value.windowStart size) = true from fitsI64_clampI64 _)
  rw [← hpl.stop] at hf
  refine ⟨rest, ⟨by simp [windowOf, hf, windowAt, hke], hne, key, e.value.accs, hke, hfo, ?_⟩,
    h.indexed.remove hg, ?_, ?_, ?_⟩
  · rw [hpl.stop]
    rfl
  · intro k' e' he'
    exact h.placed (get?_erase_eq_some.mp he').2
  · intro k' e' he'
    simp only [OpenWindows.remove, get?_erase] at he'
    split_ifs at he' with hk
    rw [sentTo_concat, if_neg (h.windowAt_ne hg he' (Ne.symm hk))]
    exact h.held he'
  · intro p hp hn
    rw [sentTo_concat]
    split_ifs with heq
    · rw [← heq, hgi]
    · refine h.idle hp fun k' e' he' => ?_
      obtain rfl | hk := eq_or_ne k' k
      · obtain rfl : e = e' := by simpa [hg] using he'
        exact heq
      · refine hn k' e' ?_
        simpa only [OpenWindows.remove, get?_erase, if_neg hk] using he'

end

end Settled

/-! ### The clock -/

/-- What was sent is behind the clock, once for a window, and what is open was reached by it. -/
structure Past (c : WindowConfig) (size : Int64) (slide : Option Int64) (high : ℤ)
    (sent : List ((Bytes × ℤ) × List Row)) (o : OpenWindows) : Prop where
  passed : ∀ s ∈ sent, satAddI s.1.2 size ≤ high
  once : (sent.map Prod.fst).Nodup
  still : ∀ {k e}, o.entries.get? k = some e → c.windowAt e ∉ sent.map Prod.fst
  reached : slide = none → ∀ {k e}, o.entries.get? k = some e → ∃ t, (0 ≤ t ∧ t ≤ high) ∧
    assignTumble t size = .ok (e.value.windowStart, e.value.windowEnd)

/-- The open windows after some calls; with `strict`, each row was taken in while its windows were
ahead of the clock. -/
structure PtLedger (c : WindowConfig) (size : Int64) (slide : Option Int64) (strict : Prop) (high : ℤ)
    (given : Bytes × ℤ → List Row) (sent : List ((Bytes × ℤ) × List Row)) (o : OpenWindows) : Prop where
  settled : Settled c size given sent o
  past : strict → Past c size slide high sent o

namespace PtLedger

variable {c : WindowConfig} {size : Int64} {slide : Option Int64} {strict : Prop} {high : ℤ}
  {given : Bytes × ℤ → List Row} {sent : List ((Bytes × ℤ) × List Row)} {o o' : OpenWindows}

section

variable (h : PtLedger c size slide strict high given sent o)

include h

theorem mono {hi' : ℤ} (hle : high ≤ hi') : PtLedger c size slide strict hi' given sent o :=
  ⟨h.settled, fun hs =>
    let ⟨hp, ho, hst, hr⟩ := h.past hs
    ⟨fun s hm => (hp s hm).trans hle, ho, hst, fun hsl _ _ he =>
      let ⟨t, ht, hw⟩ := hr hsl he
      ⟨t, ⟨ht.1, ht.2.trans hle⟩, hw⟩⟩⟩

/-- **A row enters its window**, which is ahead of the clock where that matters. -/
theorem fold (hfi : fitsI64 start = true)
    (hsa : ∀ e, o.entries.get? (encodeKeyValues (c.stateKey (c.groupKey row) start)) = some e →
      e.value.windowStart = start)
    (ha : strict → high < satAddI start size)
    (hr : slide = none → ∃ t, (0 ≤ t ∧ t ≤ high) ∧ assignTumble t size = .ok (start, satAddI start size))
    (hf : Fold c row (c.stateKey (c.groupKey row) start) start (satAddI start size) o o') :
    PtLedger c size slide strict high (addRow given (encodeKeyValues (c.groupKey row)) [start] row)
      sent o' := by
  refine ⟨h.settled.fold hfi hsa hf, fun hs => ?_⟩
  obtain ⟨hp, hon, hst, hb⟩ := h.past hs
  obtain ⟨ho, hu⟩ := hf
  refine ⟨hp, hon, ?_, ?_⟩
  · intro k e he hm
    obtain ⟨-, rfl⟩ | ⟨-, he⟩ := get?_insert_eq_some.mp he
    · cases ho with
      | found hg => exact hst hg hm
      | fresh =>
        obtain ⟨s, hs', heq⟩ := List.mem_map.mp hm
        have hle := hp s hs'
        rw [heq] at hle
        exact absurd (ha hs) (not_lt.mpr hle)
    · exact hst he hm
  · intro hsl k e he
    obtain ⟨-, rfl⟩ | ⟨-, he⟩ := get?_insert_eq_some.mp he
    · cases ho with
      | found hg =>
        have hold := hb hsl hg
        exact hold
      | fresh => exact hr hsl
    · exact hb hsl he

/-- **A window that is taken** is a part, behind the clock where that matters. -/
theorem take (hg : o.entries.get? k = some e) {key : List Scalar}
    (hke : encodeKeyValues key = encodeKeyValues (c.groupOf e.key)) (hle : key.length = c.groupIdx.length)
    (hbe : strict → e.value.windowEnd ≤ high) :
    ∃ part, c.IsPart size (resultRow key e.value.windowStart e.value.windowEnd e.value.accs) part ∧
      PtLedger c size slide strict high given (sent ++ [part]) (o.remove k e.value.windowEnd) := by
  obtain ⟨rest, hp, hse⟩ := h.settled.take hg hke hle
  refine ⟨(c.windowAt e, rest), hp, hse, fun hs => ?_⟩
  obtain ⟨hpa, ho, hst, hr⟩ := h.past hs
  have hl : ∀ {k' e'}, (o.remove k e.value.windowEnd).entries.get? k' = some e' →
      k' ≠ k ∧ o.entries.get? k' = some e' := by
    intro k' e' he'
    simp only [OpenWindows.remove, get?_erase] at he'
    split_ifs at he' with hk
    exact ⟨hk, he'⟩
  refine ⟨?_, ?_, ?_, fun hsl _ _ he' => hr hsl (hl he').2⟩
  · intro s hs'
    obtain hs' | rfl := by simpa using hs'
    · exact hpa s hs'
    · rw [windowAt, ← (h.settled.placed hg).stop]
      exact hbe hs
  · rw [map_append, nodup_append]
    refine ⟨ho, by simp, fun a ha b hb heq => ?_⟩
    obtain rfl : b = c.windowAt e := by simpa using hb
    exact hst hg (heq ▸ ha)
  · intro k' e' he' hm
    obtain ⟨hk, he'⟩ := hl he'
    obtain hm | heq : c.windowAt e' ∈ sent.map Prod.fst ∨ c.windowAt e' = c.windowAt e := by simpa using hm
    · exact hst he' hm
    · exact h.settled.windowAt_ne he' hg hk heq

/-- **The windows a reading takes** are parts. -/
theorem takes {cut : ℤ} (hc : cut ≤ high) (ht : Takes c cut o rows o') :
    ∃ parts, List.Forall₂ (c.IsPart size) rows parts ∧
      PtLedger c size slide strict high given (sent ++ parts) o' := by
  induction ht generalizing sent with
  | nil o => exact ⟨[], .nil, by rwa [append_nil]⟩
  | cons hg he _ ih =>
    obtain ⟨group, hk, hl⟩ := (h.settled.placed hg).key
    obtain ⟨part, hp, hn⟩ := h.take hg rfl (by rw [hk, groupOf_stateKey]; exact hl) fun _ => he.trans hc
    obtain ⟨parts, hpa, hr⟩ := ih hn
    exact ⟨part :: parts, .cons hp hpa, by rwa [append_assoc] at hr⟩

/-- **A row of a hopping window** enters each of its windows. -/
theorem folds (hs : c.suffixedKey = true)
    (hsl : slide ≠ none) {windows : List (ℤ × ℤ)} {ts : ℤ} (hw : Windows ts size windows)
    (ha : ∀ p ∈ windows, high < p.2) (hfol : Folds c row (c.groupKey row) windows o o') :
    PtLedger c size slide strict high (addRow given (encodeKeyValues (c.groupKey row))
      (windows.map Prod.fst) row) sent o' := by
  induction hfol generalizing given with
  | nil o =>
    have hsa : addRow given (encodeKeyValues (c.groupKey row)) [] row = given := by
      funext p
      simp [addRow]
    rw [map_nil, hsa]
    exact h
  | @cons start stop rest o₁ o₂ o₃ hfo _ ih =>
    have hst : stop = satAddI start size := hw.stops (start, stop) mem_cons_self
    subst hst
    have hf := hw.fits _ mem_cons_self
    have hk : etStateKey (c.groupKey row) start =
        c.stateKey (c.groupKey row) start := by rw [stateKey, if_pos hs]
    rw [hk] at hfo
    have ho := h.fold hf (fun e he => ?_) (fun _ => ha _ mem_cons_self) (fun h => absurd h hsl) hfo
    · have hr := ih ho (hw.sublist (sublist_cons_self _ _)) fun p hp => ha p (mem_cons_of_mem _ hp)
      rwa [addRow_addRow (List.nodup_cons.mp hw.starts).1] at hr
    · -- the key ends with the start
      have hb := h.settled.key_eq he
      rw [encodeKeyValues_stateKey] at hb
      simp only [keyBytes, hs, if_true] at hb
      exact (etKeyBytes_inj hf (h.settled.placed he).start hb).2.symm

end

variable {stop : ℤ} {now : ℤ}

/-- A window of the key that is not the row's is behind the clock, where the row's own is ahead
of it. -/
theorem behind_of_ne (h : PtLedger c size none strict high given sent o) (hn : 0 ≤ now ∧ now ≤ high)
    (hm : high ≤ i64Max) (has : assignTumble now size = .ok (start, stop)) (ha : strict → high < stop)
    (hg : o.entries.get? k = some e) (hne : e.value.windowStart ≠ start) (hs : strict) :
    e.value.windowEnd ≤ high := by
  by_contra hl
  obtain ⟨t, ht, hw⟩ := (h.past hs).reached rfl hg
  have ha := ha hs
  exact hne (assignTumble_start_eq ⟨ht.1, by omega⟩ ⟨hn.1, by omega⟩ hw has (by dsimp only; omega)
    (by dsimp only; omega))

/-- **A row of a tumbling window**: the window it finds in its place is a part, and the row
enters its own. -/
theorem rotate (h : PtLedger c size none strict high given sent o) (hs : c.suffixedKey = false)
    {o₁ : OpenWindows} (hn : 0 ≤ now ∧ now ≤ high) (hm : high ≤ i64Max)
    (ha : assignTumble now size = .ok (start, stop)) (hah : strict → high < stop)
    (hr : Rotates o (c.groupKey row) start rows o₁)
    (hfo : Fold c row (c.groupKey row) start stop o₁ o') :
    ∃ parts, List.Forall₂ (c.IsPart size) rows parts ∧
      PtLedger c size none strict high (addRow given (encodeKeyValues (c.groupKey row)) [start] row)
        (sent ++ parts) o' := by
  have hk : c.groupKey row = c.stateKey (c.groupKey row) start := by rw [stateKey, if_neg (by simp [hs])]
  have hw := assignTumble_ok ha
  have hf := hw.fits _ mem_cons_self
  obtain rfl : stop = satAddI start size := hw.stops (start, stop) mem_cons_self
  obtain ⟨e, hg, hne, rfl, rfl⟩ | ⟨hsa, rfl, rfl⟩ := hr
  · have hgr : encodeKeyValues (c.groupKey row) = encodeKeyValues (c.groupOf e.key) := by
      rw [groupOf, if_neg (by simp [hs])]
      exact (h.settled.indexed.keyed hg).symm
    obtain ⟨part, hp, hnex⟩ := h.take hg hgr (by simp [groupKey])
      (h.behind_of_ne hn hm ha hah hg hne)
    refine ⟨[part], .cons hp .nil, hnex.fold hf (fun e he => ?_) hah (fun _ => ⟨now, hn, ha⟩) (hk ▸ hfo)⟩
    rw [← hk] at he
    simp [OpenWindows.remove, get?_erase] at he
  · refine ⟨[], .nil, ?_⟩
    rw [append_nil]
    exact h.fold hf (hk ▸ hsa) hah (fun _ => ⟨now, hn, ha⟩) (hk ▸ hfo)

end PtLedger

/-! ### Calls -/

inductive PtCall where
  /-- `on_batch`. -/
  | batch (leases : ℕ → Leases) (rows : List Row) (now : ℤ)
  /-- `fire_due`. -/
  | fire (now : ℤ)

def PtCall.now : PtCall → ℤ
  | .batch _ _ now => now
  | .fire now => now

/-- A row with the reading it is taken in at, and the largest reading of the calls so far. -/
structure PtArrival where
  row : Row
  now : ℤ
  high : ℤ

namespace WindowConfig

variable (c : WindowConfig)

def windowsAt (now : ℤ) : List (ℤ × ℤ) :=
  match c.spec.kind.ptWindow with
  | some (size, slide) =>
    match c.assigned now size slide with
    | .ok windows => windows
    | .error _ => []
  | none => []

/-- The rows of calls, `high` being the largest reading before them. -/
def arrivals (c : WindowConfig) : ℤ → List PtCall → List PtArrival
  | _, [] => []
  | high, .fire now :: rest => c.arrivals (max high now) rest
  | high, .batch _ rows now :: rest =>
    rows.map (fun row => ⟨row, if c.spec.kind.isPtHopping then max high now else now, max high now⟩) ++
      c.arrivals (max high now) rest

def givenTo (arrived : List PtArrival) (p : Bytes × ℤ) : List Row :=
  arrived.filterMap fun a =>
    if p.1 = encodeKeyValues (c.groupKey a.row) ∧
      p.2 ∈ (c.windowsAt a.now).map Prod.fst then some a.row else none

/-- Every row is taken in while its windows are ahead of all readings so far. -/
def Ahead (arrived : List PtArrival) : Prop := ∀ a ∈ arrived, ∀ p ∈ c.windowsAt a.now, a.high < p.2

instance (c : WindowConfig) (arrived : List PtArrival) : Decidable (c.Ahead arrived) :=
  inferInstanceAs (Decidable (∀ a ∈ arrived, ∀ p ∈ c.windowsAt a.now, a.high < p.2))

theorem givenTo_concat (arrived : List PtArrival) (a : PtArrival) : c.givenTo (arrived ++ [a]) =
      addRow (c.givenTo arrived) (encodeKeyValues (c.groupKey a.row))
        ((c.windowsAt a.now).map Prod.fst) a.row := by
  funext p
  rw [givenTo, filterMap_append, addRow, ← givenTo]
  split_ifs with h
  · simp only [filterMap_cons, if_pos h, filterMap_nil]
  · simp only [filterMap_cons, if_neg h, filterMap_nil, append_nil]

end WindowConfig

namespace WindowOperator

/-- Calls, none of which fails, with the final rows they emit. -/
def runCalls : List PtCall → WindowOperator → Result (List Row × WindowOperator)
  | [], w => .ok ([], w)
  | .fire now :: rest, w => do
    let (rows, w) := w.fireDue now
    let (more, w) ← runCalls rest w
    return (rows ++ more, w)
  | .batch leases rows now :: rest, w =>
    match w.onBatch leases rows now with
    | (.error e, _) => .error e
    | (.ok out, w) => do
      let (more, w) ← runCalls rest w
      return (out.finals ++ more, w)

/-- The operator after some calls with the largest reading `high`. -/
structure PtKept (c : WindowConfig) (size : Int64) (slide : Option Int64) (strict : Prop) (high : ℤ)
    (arrived : List PtArrival)
    (sent : List ((Bytes × ℤ) × List Row)) (w : WindowOperator) (state : MemoryState TumbleEntry) : Prop where
  config : w.toWindowConfig = c
  store : w.store = .tumble state
  ledger : PtLedger c size slide strict high (c.givenTo arrived) sent (w.windows state)
  timed : (w.windows state).Timed w.timers
  clock : slide.isSome = true → w.hoppingClockHigh = high

variable {w : WindowOperator} {now : ℤ}

theorem reading_hopping (hkind : w.spec.kind.isPtHopping = true) (hn : 0 ≤ now) :
    w.reading now = max w.hoppingClockHigh now := by
  rw [reading, hoppingNow, if_pos ⟨hn, hkind⟩]

theorem reading_tumbling (hkind : w.spec.kind.isPtHopping = false) : w.reading now = now := by
  rw [reading, hoppingNow, if_neg (by simp [hkind])]

variable {leases : Leases}

theorem onRow_kind {w' : WindowOperator} (h : w.onRow leases row now = (.ok out, w')) :
    ∃ scratch high, onRowKind { w with scratchLeased := scratch, hoppingClockHigh := high } leases
      row (w.reading now) =
        (.ok out, w') ∧
      (w.spec.kind.isPtHopping = true → 0 ≤ now → high = max w.hoppingClockHigh now) := by
  obtain ⟨high, hn, hh⟩ := w.hoppingNow_eq now
  simp only [onRow, hn, leaseAgain] at h
  split_ifs at h
  · cases hl : leases .scratch with
    | error e => simp [hl] at h
    | ok u =>
      rw [hl] at h
      exact ⟨true, high, h, hh⟩
  · exact ⟨w.scratchLeased, high, h, hh⟩

namespace PtKept

variable {c : WindowConfig} {size : Int64} {slide : Option Int64} {strict : Prop} {high now : ℤ}
  {arrived : List PtArrival}
  {sent : List ((Bytes × ℤ) × List Row)} {w w' : WindowOperator} {state : MemoryState TumbleEntry}

section

variable (hkind : c.spec.kind.ptWindow = some (size, slide))
  (h : PtKept c size slide strict high arrived sent w state)

include hkind h

/-- **A clock reading**: the windows that end by it are sent. -/
theorem fireDue (hn : 0 ≤ now) (hf : w.fireDue now = (rows, w')) :
    ∃ state' parts, List.Forall₂ (c.IsPart size) rows parts ∧
      PtKept c size slide strict (max high now) arrived (sent ++ parts) w' state' ∧
        (w'.windows state').OpenAt now := by
  have hco := h.config
  subst hco
  have hh := isPtHopping_of_ptWindow hkind
  obtain ⟨o, timers, clock, ht, rfl, hti, ho, hc⟩ :=
    fireDue_ok (usesEventTime_of_ptWindow hkind) h.store h.ledger.settled.indexed h.timed hf
  have hr : now ≤ w.reading now ∧ w.reading now ≤ max high now := by
    cases hs : slide with
    | none => rw [reading_tumbling (by rw [hh, hs]; rfl)]; omega
    | some s => rw [reading_hopping (by rw [hh, hs]; rfl) hn, h.clock (by rw [hs]; rfl)]; omega
  obtain ⟨parts, hp, hl⟩ := (h.ledger.mono (le_max_left high now)).takes hr.2 ht
  refine ⟨{ state with entries := o.entries }, parts, hp, ⟨rfl, rfl, hl, hti, fun hs => ?_⟩,
    fun k e he => hr.1.trans_lt (ho k e he)⟩
  rw [← h.clock hs]
  exact hc (hh.trans hs) hn

/-- **A row**, of a call whose reading is among those so far. -/
theorem onRow (hn : 0 ≤ now ∧ now ≤ high) (hm : high ≤ i64Max)
    (hah : strict → ∀ p ∈ c.windowsAt (if c.spec.kind.isPtHopping then high else now), high < p.2)
    (hr : w.onRow leases row now = (.ok out, w')) :
    ∃ state' parts, List.Forall₂ (c.IsPart size) out.finals parts ∧
      PtKept c size slide strict high (arrived ++
        [⟨row, if c.spec.kind.isPtHopping then high else now, high⟩])
        (sent ++ parts) w' state' := by
  have hco := h.config
  subst hco
  have hho := isPtHopping_of_ptWindow hkind
  obtain ⟨scratch, clock, hr, hc⟩ := onRow_kind hr
  cases slide with
  | none =>
    have hk : w.spec.kind = .tumblingProcessingTime size := by
      cases hk : w.spec.kind <;> simp only [hk, ptWindow, Option.some.injEq, Prod.mk.injEq, reduceCtorEq,
        and_false] at hkind
      rw [hkind.1]
    have hh' : w.spec.kind.isPtHopping = false := hho
    simp only [hh', Bool.false_eq_true, if_false] at hah ⊢
    simp only [reading_tumbling hh', onRowKind, hk] at hr
    generalize hon : onTumbleRow _ leases row now size = result at hr
    obtain ⟨_ | rows, w₁⟩ := result
    · simp [Except.map] at hr
    obtain ⟨rfl, rfl⟩ : _ = out ∧ w₁ = w' := by simpa [Except.map] using hr
    obtain ⟨start, stop, o₁, o, timers, ha, hro, hf, ht, rfl⟩ :=
      onTumbleRow_ok (w := { w with scratchLeased := scratch, hoppingClockHigh := clock }) h.store h.timed hon
    have hw : w.windowsAt now = [(start, stop)] := by
      simp [windowsAt, hkind, assigned, ha, Except.map]
    rw [hw] at hah
    have hsu : w.suffixedKey = false := by simp [suffixedKey, hk, usesEventTime, isPtHopping]
    obtain ⟨parts, hp, hl⟩ := h.ledger.rotate hsu hn hm ha
      (fun hs => hah hs _ mem_cons_self) hro hf
    refine ⟨{ state with entries := o.entries }, parts, hp, ⟨rfl, rfl, ?_, ht, nofun⟩⟩
    rw [givenTo_concat, hw]
    exact hl
  | some slide =>
    have hk : w.spec.kind = .hoppingProcessingTime size slide := by
      cases hk : w.spec.kind <;> simp only [hk, ptWindow, Option.some.injEq, Prod.mk.injEq, reduceCtorEq,
        and_false] at hkind
      rw [hkind.1, hkind.2]
    have hh' : w.spec.kind.isPtHopping = true := hho
    have hh : max w.hoppingClockHigh now = high := by rw [h.clock rfl]; omega
    simp only [hh', if_true]
    simp only [reading_hopping hh' hn.1, hh, onRowKind, hk] at hr
    cases ha : assignHop high size slide w.spec.maxOverlap with
    | error e => simp [ha] at hr
    | ok windows =>
      simp only [ha] at hr
      generalize hal : upsertAll _ leases _ row 0 windows = result at hr
      obtain ⟨_ | u, w₁⟩ := result
      · simp [Except.map] at hr
      obtain ⟨rfl, rfl⟩ : _ = out ∧ w₁ = w' := by simpa [Except.map] using hr
      obtain ⟨o, timers, hfo, ht, rfl⟩ := upsertAll_timed
        (w := { w with scratchLeased := scratch, hoppingClockHigh := clock }) hh' h.store h.timed hal
      have hw : w.windowsAt high = windows := by simp [windowsAt, hkind, assigned, ha]
      have hsu : w.suffixedKey = true := by simp [suffixedKey, hh']
      refine ⟨{ state with entries := o.entries }, [], .nil, ⟨rfl, rfl, ?_, ht, fun _ => ?_⟩⟩
      · rw [givenTo_concat, hw, append_nil]
        exact h.ledger.folds hsu (by simp) (assignHop_ok ha).toWindows (assignHop_ok ha).ahead hfo
      · exact (hc hh' hn.1).trans hh

variable {leases : ℕ → Leases}

/-- **The rows of a batch**, `before` being what those before emitted. -/
theorem onRows (hn : 0 ≤ now ∧ now ≤ high) (hm : high ≤ i64Max) {i : ℕ} {before : WindowEmission}
    (ha : strict → rows ≠ [] → ∀ p ∈ c.windowsAt (if c.spec.kind.isPtHopping then high else now), high < p.2)
    (hr : w.onRows leases now i before rows = (.ok out, w')) :
    ∃ state' finals parts, out.finals = before.finals ++ finals ∧ List.Forall₂ (c.IsPart size) finals parts ∧
      PtKept c size slide strict high
        (arrived ++ rows.map fun row => ⟨row, if c.spec.kind.isPtHopping then high else now, high⟩)
          (sent ++ parts) w' state' := by
  induction rows generalizing w state arrived sent i before with
  | nil =>
    obtain ⟨rfl, rfl⟩ : before = out ∧ w = w' := by simpa [onRows] using hr
    exact ⟨state, [], [], by simp, .nil, by simpa using h⟩
  | cons row rest ih =>
    rw [onRows] at hr
    generalize hro : w.onRow (leases i) row now = result at hr
    obtain ⟨_ | one, w₁⟩ := result
    · simp at hr
    obtain ⟨state₁, parts₁, hp₁, hk₁⟩ := h.onRow hkind hn hm (fun hs => ha hs (by simp)) hro
    obtain ⟨state', finals, parts, hf, hp, hk⟩ := ih hk₁ (fun hs _ => ha hs (by simp)) hr
    refine ⟨state', one.finals ++ finals, parts₁ ++ parts, ?_, rel_append hp₁ hp, by simpa using hk⟩
    rw [hf, WindowEmission.extend, append_assoc]

/-- **A batch**: what is due, then the rows. -/
theorem onBatch (hn : 0 ≤ now) (hm : max high now ≤ i64Max)
    (ha : strict → rows ≠ [] → ∀ p ∈ c.windowsAt (if c.spec.kind.isPtHopping then max high now else now), max high now < p.2)
    (hb : w.onBatch leases rows now = (.ok out, w')) :
    ∃ state' parts, List.Forall₂ (c.IsPart size) out.finals parts ∧
      PtKept c size slide strict (max high now)
        (arrived ++ rows.map fun row => ⟨row, if c.spec.kind.isPtHopping then max high now else now,
          max high now⟩)
        (sent ++ parts) w' state' := by
  unfold WindowOperator.onBatch at hb
  generalize hfi : w.fireDue now = fired at hb
  obtain ⟨due, w₁⟩ := fired
  obtain ⟨state₁, parts₁, hp₁, hk₁, -⟩ := h.fireDue hkind hn hfi
  dsimp only [onBatchWithoutTimers] at hb
  generalize hr : w₁.onRows leases now 0 .none rows = result at hb
  obtain ⟨_ | next, w₂⟩ := result
  · simp [Except.map] at hb
  obtain ⟨rfl, rfl⟩ : _ = out ∧ w₂ = w' := by simpa [Except.map] using hb
  obtain ⟨state', finals, parts, hf, hp, hk⟩ := hk₁.onRows hkind ⟨hn, le_max_right _ _⟩ hm ha hr
  refine ⟨state', parts₁ ++ parts, ?_, by rwa [← append_assoc]⟩
  rw [hf]
  exact rel_append hp₁ hp

end

/-- **A run of calls**, `strict` being a condition under which its rows come in ahead of the
clock. -/
theorem runCalls (hkind : c.spec.kind.ptWindow = some (size, slide)) {calls : List PtCall} {finals : List Row}
    (h : PtKept c size slide strict high arrived sent w state) (hm : high ≤ i64Max)
    (hc : ∀ call ∈ calls, 0 ≤ call.now ∧ call.now ≤ i64Max) (hah : strict → c.Ahead (c.arrivals high calls))
    (hr : runCalls calls w = .ok (finals, w')) :
    ∃ hi' state' parts, hi' ≤ i64Max ∧ List.Forall₂ (c.IsPart size) finals parts ∧
      PtKept c size slide strict hi' (arrived ++ c.arrivals high calls) (sent ++ parts) w' state' := by
  induction calls generalizing w state arrived sent high finals with
  | nil =>
    obtain ⟨rfl, rfl⟩ : [] = finals ∧ w = w' := by simpa [runCalls] using hr
    exact ⟨high, state, [], hm, .nil, by simpa [WindowConfig.arrivals] using h⟩
  | cons call rest ih =>
    have hn := hc call mem_cons_self
    have hc' : ∀ call ∈ rest, 0 ≤ call.now ∧ call.now ≤ i64Max :=
      fun call hca => hc call (mem_cons_of_mem _ hca)
    cases call with
    | fire now =>
      rw [runCalls] at hr
      generalize hf : w.fireDue now = fired at hr
      obtain ⟨rows, w₁⟩ := fired
      obtain ⟨⟨more, w₂⟩, hre, hr⟩ := bind_eq_ok.mp hr
      obtain ⟨rfl, rfl⟩ : rows ++ more = finals ∧ w₂ = w' := by simpa [pure, Except.pure] using hr
      obtain ⟨state₁, parts₁, hp₁, hk₁, -⟩ := h.fireDue hkind hn.1 hf
      obtain ⟨hi', state', parts, hm', hpa, hk⟩ := ih hk₁ (max_le hm hn.2) hc' hah hre
      exact ⟨hi', state', parts₁ ++ parts, hm', rel_append hp₁ hpa, by rwa [← append_assoc]⟩
    | batch leases rows now =>
      rw [runCalls] at hr
      generalize hb : w.onBatch leases rows now = result at hr
      obtain ⟨_ | out, w₁⟩ := result
      · simp at hr
      obtain ⟨⟨more, w₂⟩, hre, hr⟩ := bind_eq_ok.mp hr
      obtain ⟨rfl, rfl⟩ : out.finals ++ more = finals ∧ w₂ = w' := by simpa [pure, Except.pure] using hr
      have hrow : strict → rows ≠ [] → ∀ p ∈ c.windowsAt (if c.spec.kind.isPtHopping then max high now else now),
          max high now < p.2 := by
        intro hs hne p hp
        obtain ⟨row, hro⟩ := exists_mem_of_ne_nil _ hne
        exact hah hs _ (mem_append_left _ (List.mem_map.mpr ⟨row, hro, rfl⟩)) p hp
      obtain ⟨state₁, parts₁, hp₁, hk₁⟩ := h.onBatch hkind hn.1 (max_le hm hn.2) hrow hb
      obtain ⟨hi', state', parts, hm', hpa, hk⟩ := ih hk₁ (max_le hm hn.2) hc'
        (fun hs a ha => hah hs a (mem_append_right _ ha)) hre
      refine ⟨hi', state', parts₁ ++ parts, hm', rel_append hp₁ hpa, ?_⟩
      rwa [append_assoc, append_assoc] at hk

end PtKept

/-! ### Runs -/

section Runs

variable {operator budgetKeys maxKeys maxTimers : ℕ} {spec : WindowSpec} {input : Schema}
  {external : Bool} {leases : Leases}
  {size : Int64} {slide : Option Int64} {w₀ w : WindowOperator} {calls : List PtCall} {finals : List Row}

theorem ptKept_new (strict : Prop) (hkind : spec.kind.ptWindow = some (size, slide))
    (hn : new operator spec input budgetKeys maxKeys maxTimers external leases = .ok w₀) :
    w₀.spec = spec ∧ ∃ state, PtKept w₀.toWindowConfig size slide strict 0 [] [] w₀ state := by
  obtain ⟨hsp, hs, -, -, hi, hc⟩ := new_ok hn
  obtain ⟨state, hs, hen⟩ := newStore_ok (fun size h => by simp [h, ptWindow] at hkind) hs
  have hem : ∀ k, (w₀.windows state).entries.get? k = none := fun k => by rw [windows, hen, get?_empty]
  refine ⟨hsp, state, rfl, hs, ⟨⟨?_, ?_, ?_, fun _ _ => rfl⟩, fun _ => ⟨?_, ?_, ?_, ?_⟩⟩, ?_, fun _ => hc⟩
  · refine ⟨fun {k e} he => ?_, fun {stop k key} => ?_⟩
    · simp [hem] at he
    · simp [windows, hi, hen]
  all_goals simp [hem, OpenWindows.Timed]

theorem runCalls_append (calls more : List PtCall) (w : WindowOperator) :
    runCalls (calls ++ more) w = do
      let (finals, w) ← runCalls calls w
      let (others, w) ← runCalls more w
      return (finals ++ others, w) := by
  induction calls generalizing w with
  | nil =>
    cases hm : runCalls more w <;> simp [runCalls, hm, bind, Except.bind, pure, Except.pure]
  | cons call rest ih =>
    cases call with
    | fire now =>
      simp only [cons_append, runCalls, ih]
      cases runCalls rest (w.fireDue now).2 with
      | error e => rfl
      | ok r => cases hm : runCalls more r.2 <;> simp [bind, Except.bind, pure, Except.pure, hm]
    | batch leases rows now =>
      simp only [cons_append, runCalls]
      rcases w.onBatch leases rows now with ⟨_ | _, w₁⟩
      · rfl
      · simp only [ih]
        cases runCalls rest w₁ with
        | error e => rfl
        | ok r => cases hm : runCalls more r.2 <;> simp [bind, Except.bind, pure, Except.pure, hm]

variable {c : WindowConfig}

/-- A hopping window takes every row in at the largest reading, behind which none of its
windows ends. -/
theorem ahead_hopping {slide : Int64} (hkind : c.spec.kind.ptWindow = some (size, some slide)) (high : ℤ)
    (calls : List PtCall) : c.Ahead (c.arrivals high calls) := by
  have hh : c.spec.kind.isPtHopping = true := isPtHopping_of_ptWindow hkind
  induction calls generalizing high with
  | nil => nofun
  | cons call rest ih =>
    cases call with
    | fire now => exact ih (max high now)
    | batch leases rows now =>
      intro a ha p hp
      obtain ha | ha := List.mem_append.mp ha
      · obtain ⟨row, -, rfl⟩ := List.mem_map.mp ha
        simp only [hh, if_true, windowsAt, hkind, assigned] at hp
        cases has : assignHop (max high now) size slide c.spec.maxOverlap with
        | error e => simp [has] at hp
        | ok windows =>
          rw [has] at hp
          exact (assignHop_ok has).ahead p hp
      · exact ih (max high now) a ha p hp

theorem filterMap_windowOf {parts : List ((Bytes × ℤ) × List Row)}
    (h : List.Forall₂ (c.IsPart size) finals parts) : finals.filterMap c.windowOf = parts.map Prod.fst := by
  induction h with
  | nil => rfl
  | cons hp _ ih => rw [filterMap_cons_some hp.1, ih, map_cons]

/-- **Every row counted once.** After any calls without an error of a tumbling or hopping window
over processing time, the last one a reading of the end of time: the final rows are the folds of
parts, and of each window the parts, in order, make up the rows it was given. So every row is in
one part of each of its windows, and in no other. For a hopping window, and for a tumbling
window whose rows come in while their window is ahead of every reading so far, each window is
sent once. -/
theorem counted_once (hnew : new operator spec input budgetKeys maxKeys maxTimers external leases = .ok w₀)
    (hkind : spec.kind.ptWindow = some (size, slide))
    (hclock : ∀ call ∈ calls, 0 ≤ call.now ∧ call.now ≤ i64Max)
    (hrun : runCalls (calls ++ [.fire i64Max]) w₀ = .ok (finals, w)) :
    (∃ parts, List.Forall₂ (w₀.IsPart size) finals parts ∧
      ∀ p : Bytes × ℤ, fitsI64 p.2 = true → sentTo parts p = w₀.givenTo (w₀.arrivals 0 calls) p) ∧
    (slide.isSome = true ∨ w₀.Ahead (w₀.arrivals 0 calls) → (finals.filterMap w₀.windowOf).Nodup) := by
  obtain ⟨hsp, state₀, hk₀⟩ := ptKept_new (slide.isSome = true ∨ w₀.Ahead (w₀.arrivals 0 calls)) hkind hnew
  rw [← hsp] at hkind
  rw [runCalls_append] at hrun
  obtain ⟨⟨before, w₁⟩, hb, hrun⟩ := bind_eq_ok.mp hrun
  obtain ⟨⟨last, w₂⟩, hl, hrun⟩ := bind_eq_ok.mp hrun
  obtain ⟨rfl, rfl⟩ : before ++ last = finals ∧ w₂ = w := by simpa [pure, Except.pure] using hrun
  have ha : slide.isSome = true ∨ w₀.Ahead (w₀.arrivals 0 calls) → w₀.Ahead (w₀.arrivals 0 calls) := by
    rintro (hsl | ha)
    · obtain ⟨s, rfl⟩ := Option.isSome_iff_exists.mp hsl
      exact ahead_hopping hkind 0 calls
    · exact ha
  obtain ⟨high, state₁, parts₁, -, hp₁, hk₁⟩ := hk₀.runCalls hkind (by decide) hclock ha hb
  have hf : w₁.fireDue i64Max = (last, w₂) := by
    simpa [runCalls, bind, Except.bind, pure, Except.pure] using hl
  obtain ⟨state', parts₂, hp₂, hk, ho⟩ := hk₁.fireDue hkind (by decide) hf
  have hpa := rel_append hp₁ hp₂
  refine ⟨⟨parts₁ ++ parts₂, hpa, fun p hp => ?_⟩, fun hs => ?_⟩
  · -- no window ends after the end of time
    refine (hk.ledger.settled.idle hp fun k e he _ => ?_).symm
    have hlt := ho k e he
    have hst := (hk.ledger.settled.placed he).stop
    simp only [satAddI, clampI64, i64Min, i64Max] at hst hlt
    omega
  · rw [filterMap_windowOf hpa]
    exact (hk.ledger.past hs).once

/-- **Nothing due is left.** After any calls without an error and one more reading of the clock, which may go back, every
stored window ends after that reading, has a live timer at its end, and is listed once, under its end and key. -/
theorem due_exact {now : ℤ} (hnew : new operator spec input budgetKeys maxKeys maxTimers external
    leases = .ok w₀)
    (hkind : spec.kind.ptWindow = some (size, slide))
    (hclock : ∀ call ∈ calls, 0 ≤ call.now ∧ call.now ≤ i64Max)
    (hnow : 0 ≤ now) (hrun : runCalls calls w₀ = .ok (finals, w)) :
    ∃ state, (w.fireDue now).2.store = .tumble state ∧ (∀ k e, state.entries.get? k = some e →
        now < e.value.windowEnd ∧ (w.fireDue now).2.timers.live.get? e.value.windowEnd = some ()) ∧
      ∀ stop k key, (w.fireDue now).2.closedIndex.get? (toLex (stop, k)) = some key ↔
        ∃ e, state.entries.get? k = some e ∧ e.key = key ∧ e.value.windowEnd = stop := by
  obtain ⟨hs, state₀, hk₀⟩ := ptKept_new False hkind hnew
  rw [← hs] at hkind
  obtain ⟨_, _, _, -, -, hk₁⟩ := hk₀.runCalls hkind (by decide) hclock False.elim hrun
  obtain ⟨state, _, -, hk, ho⟩ := hk₁.fireDue hkind hnow rfl
  refine ⟨state, hk.store, fun k e he => ?_, fun _ _ _ => hk.ledger.settled.indexed.listed⟩
  exact ⟨ho k e he, hk.timed k e he⟩

end Runs

/-! ### A clock that goes back -/

def rollbackSpec : WindowSpec :=
  WindowSpec.new (.tumblingProcessingTime 10) ["k"]
    [{ func := .count, input := none, aliasName := "n", countStar := true }]

def rollbackWindow : WindowOperator :=
  Result.value (new 0 rollbackSpec { fields := [⟨"k", .int64, false⟩] } 100 100 100 false .all) (by decide)

/-- A batch of one row of the only key. -/
def rollbackBatch (now : ℤ) : PtCall := .batch (fun _ => .all) [⟨[.int64 1]⟩] now

theorem counted_once_forward : ∃ finals w,
    runCalls ([rollbackBatch 15, rollbackBatch 12, rollbackBatch 25] ++ [.fire i64Max])
      rollbackWindow = .ok (finals, w) ∧ (finals.filterMap rollbackWindow.windowOf).Nodup := by
  have hn : new 0 rollbackSpec { fields := [⟨"k", .int64, false⟩] } 100 100 100 false .all =
    .ok rollbackWindow := Result.eq_value _
  have hok : (runCalls ([rollbackBatch 15, rollbackBatch 12, rollbackBatch 25] ++ [.fire i64Max])
      rollbackWindow).isOk = true := by
    decide
  cases hr : runCalls ([rollbackBatch 15, rollbackBatch 12, rollbackBatch 25] ++ [.fire i64Max])
    rollbackWindow with
  | error e =>
    rw [hr] at hok
    cases hok
  | ok r =>
    exact ⟨r.1, r.2, rfl, (counted_once hn rfl (by decide) hr).2 (.inr (by decide))⟩

theorem due_exact_rollback : ∃ finals w state,
    runCalls [rollbackBatch 15, rollbackBatch 5] rollbackWindow = .ok (finals, w) ∧
    (w.fireDue 7).2.store = .tumble state ∧ state.entries.size = 1 ∧
      ∀ k e, state.entries.get? k = some e → 7 < e.value.windowEnd := by
  have hn : new 0 rollbackSpec { fields := [⟨"k", .int64, false⟩] } 100 100 100 false .all =
    .ok rollbackWindow := Result.eq_value _
  let r := Result.value (runCalls [rollbackBatch 15, rollbackBatch 5] rollbackWindow) (by decide)
  have hr : runCalls [rollbackBatch 15, rollbackBatch 5] rollbackWindow = .ok (r.1, r.2) :=
    Result.eq_value (by decide)
  obtain ⟨state, hs, hl, -⟩ := due_exact hn rfl (by decide) (by decide : (0 : ℤ) ≤ 7) hr
  obtain ⟨s, hs', ho⟩ : ∃ s, (r.2.fireDue 7).2.store = .tumble s ∧ s.entries.size = 1 :=
    ⟨_, rfl, by decide⟩
  obtain rfl := WindowStore.tumble.inj (hs.symm.trans hs')
  exact ⟨r.1, r.2, state, hr, hs, ho, fun k e he => (hl k e he).1⟩

/-- A step back over the start of a window, and forth again. -/
def rollbackRun : List Row × WindowOperator :=
  Result.value (runCalls ([rollbackBatch 15, rollbackBatch 5, rollbackBatch 15] ++ [.fire i64Max])
    rollbackWindow)
    (by decide)

theorem sent_twice :
    runCalls ([rollbackBatch 15, rollbackBatch 5, rollbackBatch 15] ++ [.fire i64Max])
      rollbackWindow = .ok rollbackRun ∧
      ¬ (rollbackRun.1.filterMap rollbackWindow.windowOf).Nodup :=
  ⟨Result.eq_value _, by decide⟩

end WindowOperator

end Sparrow.Runtime
