import Sparrow.Runtime.WindowSteps

/-!
# Freezing a window, and restoring it

`freeze` and `restore_freeze` of `sparrow-runtime/src/window.rs`. A freeze holds the open windows
in the order of their encoded keys, the two watermarks of the holdback and the committed
watermark of the hub; the state of the hub's inputs is not part of it.

A restore that fails leaves an operator that its caller drops, so that it returns the
operator only when it succeeds.
-/

namespace Sparrow.Runtime

open Library Model Plan SortedMap List

structure FrozenEntry where
  key : List Scalar
  windowStart : ℤ
  windowEnd : ℤ
  count : ℕ
  accs : List Accumulator

structure WindowFreeze where
  operator : ℕ
  slot : ℕ
  kind : ℕ
  entries : List FrozenEntry
  wmIn : Option ℤ
  wmOut : Option ℤ
  lastEffective : Option ℤ

namespace WindowOperator

def slot : ℕ := 1

def frozenTumble (e : Stored TumbleEntry) : FrozenEntry :=
  { key := e.key, windowStart := e.value.windowStart, windowEnd := e.value.windowEnd, count := 0, accs := e.value.accs }

def frozenCount (e : Stored CountEntry) : FrozenEntry :=
  { key := e.key, windowStart := 0, windowEnd := 0, count := e.value.count, accs := e.value.accs }

def storeKind : WindowStore → ℕ
  | .tumble _ => 0
  | .count _ => 1

/-- The windows of a store, frozen; the store is in the order the freeze sorts them in. -/
def frozenEntries : WindowStore → List FrozenEntry
  | .tumble s => s.entries.entries.map fun e => frozenTumble e.2
  | .count s => s.entries.entries.map fun e => frozenCount e.2

variable (w : WindowOperator)

/-- `freeze`. -/
def freeze : WindowFreeze :=
  { operator := w.operator, slot := slot, kind := storeKind w.store, entries := frozenEntries w.store,
    wmIn := w.wmIn, wmOut := w.wmOut, lastEffective := w.hub.lastEffective }

/-- Put frozen windows back, numbered from `i`. -/
def restoreEntries {V : Type} (value : FrozenEntry → V) (leases : Leases) :
    ℕ → List FrozenEntry → MemoryState V → Result (MemoryState V)
  | _, [], s => .ok s
  | i, e :: rest, s => do
    refuseIf ((s.get? e.key).isSome) (.new .unsupportedRestore
      "checkpoint contains duplicate canonical keys; reset/replay required")
    let s ← s.put (leases (.entry i)) e.key (value e)
    restoreEntries value leases (i + 1) rest s

variable (leases : Leases) (freeze : WindowFreeze)

/-- Put the frozen windows of a kind back into a store. -/
def restoreStore : WindowStore → Result WindowStore
  | .tumble s =>
    if freeze.kind = 0 then
      (restoreEntries (fun e => { windowStart := e.windowStart, windowEnd := e.windowEnd, accs := e.accs })
        leases 0 freeze.entries s).map .tumble
    else .error (.new .invalidArgument "checkpoint window kind does not match this operator")
  | .count s =>
    if freeze.kind = 1 then
      (restoreEntries (fun e => { count := e.count, accs := e.accs }) leases 0 freeze.entries s).map .count
    else .error (.new .invalidArgument "checkpoint window kind does not match this operator")

/-- Enter windows into the index, numbered from `i`. -/
def indexEntries (leases : Leases) : ℕ → List (Bytes × Stored TumbleEntry) →
    SortedMap (ℤ ×ₗ Bytes) (List Scalar) → Result (SortedMap (ℤ ×ₗ Bytes) (List Scalar))
  | _, [], index => .ok index
  | i, (k, e) :: rest, index => do
    leases (.index i)
    indexEntries leases (i + 1) rest (index.insert (toLex (e.value.windowEnd, k)) e.key)

/-- `rebuild_closed_index`. -/
def rebuildClosedIndex : WindowStore → Result (SortedMap (ℤ ×ₗ Bytes) (List Scalar))
  | .tumble s => indexEntries leases 0 s.entries.entries .empty
  | .count _ => .ok .empty

def scheduleEnds (timers : BoundedTimers) (ends : List ℤ) : Result BoundedTimers :=
  ends.foldlM BoundedTimers.schedule timers

/-- The ends that a restored processing-time window has to be woken up for. -/
def restoredEnds (kind : WindowKind) : WindowStore → List ℤ
  | .tumble s => if kind.usesEventTime then [] else s.entries.entries.map fun e => e.2.value.windowEnd
  | .count _ => []

/-- `restore_freeze_inner`. -/
def restoreFreezeInner : Result WindowOperator := do
  refuseIf (freeze.operator ≠ w.operator) (.new .invalidArgument
    "checkpoint operator id does not match this window")
  refuseIf (freeze.slot ≠ slot) (.new .invalidArgument "checkpoint StateSlotKey does not match this window")
  leases .restore
  let w := w.cleanup
  let store ← restoreStore leases freeze w.store
  let holdback := w.holdback.map fun h => { h with wmIn := freeze.wmIn, wmOut := freeze.wmOut }
  let hub := { w.hub with lastEffective := freeze.lastEffective }
  let closedIndex ← rebuildClosedIndex leases store
  let timers ← scheduleEnds w.timers (restoredEnds w.spec.kind store)
  return { w with store, holdback, hub, closedIndex, timers }

/-- Some aggregate was added after the first codec. -/
def hasExtendedAggs (spec : WindowSpec) : Bool := spec.aggs.any fun a => a.func.isExtended

def noCodec : SparrowError := .new .unsupportedRestore "new window families have no published restore codec/profile"

/-- `restore_freeze`, the entry for embedders. -/
def restoreFreeze : Result WindowOperator := do
  refuseIf (w.spec.kind.isNewWindow ∨ hasExtendedAggs w.spec) noCodec
  w.restoreFreezeInner leases freeze

/-- `restore_participant_freeze`, the entry for checkpoint participants. -/
def restoreParticipantFreeze : Result WindowOperator := do
  refuseIf (w.spec.kind.isNewWindow ∧ ¬ w.spec.kind.isPtHopping) noCodec
  w.restoreFreezeInner leases freeze

end WindowOperator

/-! ### What was frozen comes back -/

/-- What holds of the store of an operator: entries stand under the bytes of their keys, within
the bound. -/
structure MemoryState.Sound {V : Type} (s : MemoryState V) : Prop where
  keyed : ∀ {k e}, s.entries.get? k = some e → encodeKeyValues e.key = k
  bounded : s.entries.size ≤ s.maxKeys

def WindowStore.Sound : WindowStore → Prop
  | .tumble s => s.Sound
  | .count s => s.Sound

def WindowStore.cleared : WindowStore → WindowStore
  | .tumble s => .tumble { s with entries := .empty }
  | .count s => .count { s with entries := .empty }

variable {leases : Leases}

namespace WindowOperator

/-- **Entries put back one by one are all there.** -/
theorem restoreEntries_ok {V : Type} {value : FrozenEntry → V} (frozen : Stored V → FrozenEntry)
    (hleases : ∀ site, leases site = .ok ()) (hfr : ∀ e, (frozen e).key = e.key ∧ value (frozen e) = e.value)
    {l : List (Bytes × Stored V)} (hl : l.Pairwise fun a b => a.1 ≠ b.1)
    (hke : ∀ e ∈ l, encodeKeyValues e.2.key = e.1) {s : MemoryState V} (hf : ∀ e ∈ l, s.entries.get? e.1 = none)
    (hs : s.entries.size + l.length ≤ s.maxKeys) (i : ℕ) :
    restoreEntries value leases i (l.map fun e => frozen e.2) s =
      .ok { s with entries := l.foldl (fun m e => m.insert e.1 e.2) s.entries } := by
  induction l generalizing s i with
  | nil => rfl
  | cons e rest ih =>
    obtain ⟨hh, hr⟩ := List.pairwise_cons.mp hl
    obtain ⟨hk, hv⟩ := hfr e.2
    have hb := hke e mem_cons_self
    have hn := hf e mem_cons_self
    have hro : ¬ s.maxKeys ≤ s.entries.size := by
      rw [length_cons] at hs
      omega
    have hp : s.put (leases (.entry i)) (frozen e.2).key (value (frozen e.2)) =
        .ok { s with entries := s.entries.insert e.1 e.2 } := by
      simp [MemoryState.put, hk, hv, hb, hn, hro, hleases, refuseIf, bind, Except.bind, pure,
        Except.pure]
    have hi := s.entries.size_insert_le e.1 e.2
    have hf' : ∀ e' ∈ rest, (s.entries.insert e.1 e.2).get? e'.1 = none := by
      intro e' he'
      rw [get?_insert_of_ne _ _ (hh e' he').symm]
      exact hf e' (mem_cons_of_mem _ he')
    rw [map_cons, restoreEntries, MemoryState.get?, hk, hb, hn]
    rw [← hk, hp]
    exact ih (s := { s with entries := s.entries.insert e.1 e.2 }) hr
      (fun e' he' => hke e' (mem_cons_of_mem _ he')) hf'
      (by simp only [length_cons] at hs ⊢; omega) (i + 1)

theorem restoreEntries_self {V : Type} {value : FrozenEntry → V} {frozen : Stored V → FrozenEntry}
    (hleases : ∀ site, leases site = .ok ()) (hf : ∀ e, (frozen e).key = e.key ∧ value (frozen e) = e.value)
    {s : MemoryState V} (hs : s.Sound) :
    restoreEntries value leases 0 (s.entries.entries.map fun e => frozen e.2) { s with entries := .empty } = .ok s := by
  rw [restoreEntries_ok frozen hleases hf (s.entries.sorted.imp fun h => h.ne)
    (fun e he => hs.keyed (mem_entries_iff.mp he)) (fun _ _ => rfl)
    (by simpa [size] using hs.bounded), foldl_insert_entries]

section

variable (hleases : ∀ site, leases site = .ok ())

include hleases

/-- **A store comes back from its freeze.** -/
theorem restoreStore_ok {store : WindowStore} (hs : store.Sound)
    {freeze : WindowFreeze} (hk : freeze.kind = storeKind store) (he : freeze.entries = frozenEntries store) :
    restoreStore leases freeze store.cleared = .ok store := by
  cases store with
  | tumble s =>
    have hk : freeze.kind = 0 := hk
    rw [WindowStore.cleared, restoreStore, if_pos hk, he, frozenEntries,
      restoreEntries_self hleases (fun _ => ⟨rfl, rfl⟩) hs]
    rfl
  | count s =>
    have hk : freeze.kind = 1 := hk
    rw [WindowStore.cleared, restoreStore, if_pos hk, he, frozenEntries,
      restoreEntries_self hleases (fun _ => ⟨rfl, rfl⟩) hs]
    rfl

def indexEntry (e : Bytes × Stored TumbleEntry) : (ℤ ×ₗ Bytes) × List Scalar :=
  (toLex (e.2.value.windowEnd, e.1), e.2.key)

theorem indexEntries_ok (l : List (Bytes × Stored TumbleEntry)) (i : ℕ) (index : SortedMap (ℤ ×ₗ Bytes) (List Scalar)) :
    indexEntries leases i l index = .ok ((l.map indexEntry).foldl (fun m e => m.insert e.1 e.2) index) := by
  induction l generalizing i index with
  | nil => rfl
  | cons e rest ih =>
    rw [indexEntries, hleases]
    exact ih (i + 1) _

/-- **The index built from the windows** is the one that lists them. -/
theorem rebuildClosedIndex_ok {s : MemoryState TumbleEntry}
    {index : SortedMap (ℤ ×ₗ Bytes) (List Scalar)} (ho : OpenWindows.Indexed ⟨s.entries, index⟩) :
    rebuildClosedIndex leases (.tumble s) = .ok index := by
  have hne : (s.entries.entries.map indexEntry).Pairwise fun a b => a.1 ≠ b.1 := by
    rw [pairwise_map]
    refine s.entries.sorted.imp fun {a b} hlt heq => hlt.ne ?_
    exact congrArg (fun i => (ofLex i).2) heq
  rw [rebuildClosedIndex, indexEntries_ok hleases]
  refine congrArg _ (ext_get? fun i => Option.ext fun key => ?_)
  rw [get?_foldl_insert hne fun _ _ => get?_empty _, get?_empty, mem_map]
  refine ⟨?_, fun hi => .inl ?_⟩
  · rintro (⟨e, hm, heq⟩ | hn)
    · cases heq
      exact ho.listed.mpr ⟨e.2, mem_entries_iff.mp hm, rfl, rfl⟩
    · cases hn
  · obtain ⟨e, hg, rfl, hs⟩ := ho.listed.mp (show _ = _ from hi)
    exact ⟨(_, e), mem_entries_iff.mpr hg, by rw [indexEntry, hs]; rfl⟩

end

/-- The index of an operator is the one its store stands for. -/
def IndexSound (w : WindowOperator) : Prop :=
  match w.store with
  | .tumble s => OpenWindows.Indexed ⟨s.entries, w.closedIndex⟩
  | .count _ => w.closedIndex = .empty

/-- The operator with another hub, and with or without credit for the candidate accumulators. -/
def withClock (w : WindowOperator) (hub : WatermarkHub) (scratch : Bool) : WindowOperator :=
  { w with hub, scratchLeased := scratch }

/-- `w` is what some use has made of the new operator `w₀`, without its timers. -/
structure Used (w₀ w : WindowOperator) : Prop where
  config : w.toWindowConfig = w₀.toWindowConfig
  cleared : w.store.cleared = w₀.store.cleared
  sound : w.store.Sound
  index : w.IndexSound
  holdback : w.holdback = w₀.holdback.map fun h => { h with wmIn := w.wmIn, wmOut := w.wmOut }
  timers : w.timers = { w₀.timers with live := .empty }
  clock : w.hoppingClockHigh = w₀.hoppingClockHigh

/-- **What was frozen comes back**, but for the state of the hub's inputs, which is that of the new
operator. -/
theorem restoreFreezeInner_ok {w₀ w : WindowOperator}
    (hk : w₀.spec.kind.usesEventTime = true ∨ ∃ s, w.store = .count s) (hleases : ∀ site, leases site = .ok ())
    (hw : Used w₀ w) : w₀.restoreFreezeInner leases w.freeze =
      .ok (w.withClock { w₀.hub with lastEffective := w.hub.lastEffective } false) := by
  have ho : w.operator = w₀.operator := by rw [hw.config]
  have hc : w₀.cleanup.store = w.store.cleared := by
    rw [hw.cleared, cleanup]
    cases w₀.store <;> rfl
  have hst : restoreStore leases w.freeze w₀.cleanup.store = .ok w.store := by
    rw [hc]
    exact restoreStore_ok hleases hw.sound rfl rfl
  have hi : rebuildClosedIndex leases w.store = .ok w.closedIndex := by
    have hso := hw.index
    unfold IndexSound at hso
    cases hs : w.store with
    | tumble s =>
      rw [hs] at hso
      exact rebuildClosedIndex_ok hleases hso
    | count s =>
      rw [hs] at hso
      exact congrArg _ hso.symm
  -- no timer is needed
  have he : restoredEnds w₀.cleanup.spec.kind w.store = [] := by
    obtain het | ⟨s, hs⟩ := hk
    · cases w.store with
      | tumble s => exact if_pos het
      | count s => rfl
    · rw [hs]
      rfl
  have hr : ∀ e, refuseIf (w.freeze.operator ≠ w₀.operator) e = .ok () := fun e =>
    refuseIf_eq_ok.mpr (not_not.mpr ho)
  have hsl : ∀ e, refuseIf (w.freeze.slot ≠ slot) e = .ok () := fun e =>
    refuseIf_eq_ok.mpr (not_not.mpr rfl)
  simp only [restoreFreezeInner, hr, hsl, hleases, bind, Except.bind, hst, hi, he, scheduleEnds,
    foldlM_nil, pure, Except.pure, Except.ok.injEq]
  simp only [withClock, cleanup, WindowOperator.mk.injEq]
  exact ⟨hw.config.symm, trivial, hw.timers.symm, rfl, hw.holdback.symm, trivial, trivial, hw.clock.symm⟩

end WindowOperator

end Sparrow.Runtime
