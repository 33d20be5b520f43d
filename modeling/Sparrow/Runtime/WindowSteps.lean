import Sparrow.Model.Assign
import Sparrow.Runtime.WindowOperator

/-!
# What the calls of an event-time window do

One description per operation of `WindowOperator` for the tumbling and hopping windows
over event time, from which the later modules derive every invariant.

## What is proved

* `onRow_ok`, `takeClosedBatch_ok` — what a row does, and what is taken when windows close.
* `upsertAll_ok` — a row folded into windows changes exactly those.
-/

namespace Sparrow.Runtime

open Library Model Plan SortedMap WindowKind List Option

/-! ### Keys -/

theorem toUInt64_inj {a b : Int64} (h : a.toUInt64.toNat = b.toUInt64.toNat) : a = b := by
  have := UInt64.toNat_inj.mp h
  cases a
  cases b
  simpa using this

theorem encodeKeyValues_append (a b : List Scalar) :
    encodeKeyValues (a ++ b) = encodeKeyValues a ++ encodeKeyValues b := by
  simp [encodeKeyValues]

def etKeyBytes (g : Bytes) (start : ℤ) : Bytes := g ++ encodeKeyValues [.int64 (.ofInt start)]

theorem encodeKeyValues_etStateKey (group : List Scalar) (start : ℤ) :
    encodeKeyValues (etStateKey group start) = etKeyBytes (encodeKeyValues group) start := by
  rw [etStateKey, encodeKeyValues_append]
  rfl

/-- **A state key determines the group and the start of its window**: the start has a fixed
width at the end of the key. -/
theorem etKeyBytes_inj {g g' : Bytes} {s s' : ℤ} (hs : fitsI64 s = true) (hs' : fitsI64 s' = true)
    (h : etKeyBytes g s = etKeyBytes g' s') : g = g' ∧ s = s' := by
  have hl : (encodeKeyValues [.int64 (.ofInt s)]).length = (encodeKeyValues [.int64 (.ofInt s')]).length := by
    simp [encodeKeyValues, Scalar.encodeKey, encodeInt64]
  obtain ⟨hg, hk⟩ := append_inj' h hl
  refine ⟨hg, ?_⟩
  simp only [encodeKeyValues, Scalar.encodeKey, encodeInt64, flatMap_cons, flatMap_nil,
    append_nil, cons_append, cons.injEq, true_and, append_left_inj] at hk
  have hb := leBytes_injOn (UInt64.toNat_lt _) (UInt64.toNat_lt _) hk
  rw [← toInt_ofInt_of_fits hs, ← toInt_ofInt_of_fits hs', toUInt64_inj hb]

/-! ### Accumulators -/

variable {row : Row} {leases : Leases} {c : WindowConfig} {rows : List Row} {w w' : WindowOperator}
  {state : MemoryState TumbleEntry} {key group : List Scalar} {i maxRows maxBytes : ℕ} {out : WindowEmission}
  {cut now stop start : ℤ} {h : OutputHoldback} {slide : Option Int64} {sizes : Sizes}

namespace WindowConfig

/-- The accumulators after a row, if every update succeeds. -/
def update (c : WindowConfig) (row : Row) (accs : List Accumulator) : Result (List Accumulator) :=
  match updateAccs row accs c.spec.aggs c.boundAggs with
  | (.error e, _) => .error e
  | (.ok (), accs) => .ok accs

def foldRows (c : WindowConfig) (accs : List Accumulator) : List Row → Result (List Accumulator)
  | [] => .ok accs
  | row :: rest => do
    let accs ← c.update row accs
    c.foldRows accs rest

variable {accs' accs : List Accumulator}

theorem foldRows_concat {accs'' : List Accumulator} (h : c.foldRows accs rows = .ok accs')
    (hro : c.update row accs' = .ok accs'') : c.foldRows accs (rows ++ [row]) = .ok accs'' := by
  induction rows generalizing accs with
  | nil =>
    obtain rfl : accs = accs' := Except.ok.inj h
    exact bind_eq_ok.mpr ⟨accs'', hro, rfl⟩
  | cons r rest ih =>
    obtain ⟨mid, hm, hr⟩ := bind_eq_ok.mp h
    exact bind_eq_ok.mpr ⟨mid, hm, ih hr⟩

theorem applyRow_ok {lease : Result Unit}
    (h : c.applyRow lease row accs = (.ok (), accs')) : c.update row accs = .ok accs' := by
  unfold applyRow at h
  unfold update
  split_ifs at h
  · unfold updateAccsMetered at h
    split_ifs at h
    · simp at h
    · rcases hu : updateAccs row accs c.spec.aggs c.boundAggs with ⟨_ | u, new⟩
      · simp [hu] at h
      · cases lease with
        | error e => simp [hu] at h
        | ok u => simpa [hu] using h
  · rw [h]

theorem buildMeteredBatch_ok {batch : Option RowBatch} (h : c.buildMeteredBatch leases rows = .ok batch) :
    (rows = [] ∧ batch = none) ∨ (rows ≠ [] ∧ ∃ b, batch = some b ∧ b.rows = rows) := by
  unfold buildMeteredBatch at h
  split_ifs at h with hn
  · exact .inl ⟨hn, (Except.ok.inj h).symm⟩
  · replace h := after_check (after_check h)
    exact .inr ⟨hn, _, (Except.ok.inj h).symm, rfl⟩

end WindowConfig

/-! ### Folding a row into windows -/

structure OpenWindows where
  entries : SortedMap Bytes (Stored TumbleEntry)
  /-- `closedIndex`. -/
  index : SortedMap (ℤ ×ₗ Bytes) (List Scalar)

namespace OpenWindows

def withAccs (e : Stored TumbleEntry) (accs : List Accumulator) : Stored TumbleEntry :=
  { e with value := { e.value with accs } }

/-- The window a row is folded into: the one that is open, or a new one in the index. -/
inductive Opens (c : WindowConfig) (o : OpenWindows) (key : List Scalar) (start stop : ℤ) :
    Stored TumbleEntry → SortedMap (ℤ ×ₗ Bytes) (List Scalar) → Prop where
  | found {old : Stored TumbleEntry} (h : o.entries.get? (encodeKeyValues key) = some old) :
      Opens c o key start stop old o.index
  | fresh {accs : List Accumulator} (h : o.entries.get? (encodeKeyValues key) = none)
      (hempty : c.emptyAccs = .ok accs) :
      Opens c o key start stop { key, value := { windowStart := start, windowEnd := stop, accs } }
        (o.index.insert (toLex (stop, encodeKeyValues key)) key)

inductive Fold (c : WindowConfig) (row : Row) (key : List Scalar) (start stop : ℤ) (o : OpenWindows) :
    OpenWindows → Prop where
  | mk {old : Stored TumbleEntry} {index : SortedMap (ℤ ×ₗ Bytes) (List Scalar)} {accs : List Accumulator}
      (hopens : o.Opens c key start stop old index) (hupdate : c.update row old.value.accs = .ok accs) :
      Fold c row key start stop o
        { entries := o.entries.insert (encodeKeyValues key) (withAccs old accs), index }

/-- A row folded into windows of a group, one after the other. -/
inductive Folds (c : WindowConfig) (row : Row) (group : List Scalar) :
    List (ℤ × ℤ) → OpenWindows → OpenWindows → Prop where
  | nil (o : OpenWindows) : Folds c row group [] o o
  | cons {start stop : ℤ} {rest : List (ℤ × ℤ)} {o o' o'' : OpenWindows}
      (hfold : Fold c row (etStateKey group start) start stop o o') (hrest : Folds c row group rest o' o'') :
      Folds c row group ((start, stop) :: rest) o o''

end OpenWindows

namespace WindowOperator

open OpenWindows

def withWindows (w : WindowOperator) (state : MemoryState TumbleEntry) (o : OpenWindows) : WindowOperator :=
  { w with store := .tumble { state with entries := o.entries }, closedIndex := o.index }

/-! ### Creation -/

variable {budgetKeys operator maxKeys : ℕ}

theorem new_ok {maxTimers : ℕ} {spec : WindowSpec} {input : Schema} {external : Bool}
    (h : new operator spec input budgetKeys maxKeys maxTimers external leases = .ok w) :
    w.spec = spec ∧ newStore spec.kind operator maxKeys budgetKeys = .ok w.store ∧ newHoldback spec = .ok w.holdback ∧
      BoundedTimers.new operator maxTimers = .ok w.timers ∧ w.closedIndex = .empty ∧ w.hoppingClockHigh = 0 := by
  replace h := after_check (after_check h)
  obtain ⟨groupIdx, -, h⟩ := bind_eq_ok.mp h
  obtain ⟨eventTimeIdx, -, h⟩ := bind_eq_ok.mp h
  obtain ⟨output, -, h⟩ := bind_eq_ok.mp h
  obtain ⟨boundAggs, -, h⟩ := bind_eq_ok.mp h
  obtain ⟨store, hs, h⟩ := bind_eq_ok.mp h
  obtain ⟨hub, -, h⟩ := bind_eq_ok.mp h
  replace h := after_check h
  obtain ⟨holdback, hh, h⟩ := bind_eq_ok.mp h
  replace h := after_check h
  obtain ⟨timers, ht, h⟩ := bind_eq_ok.mp h
  cases h
  exact ⟨rfl, hs, hh, ht, rfl, rfl⟩

theorem newStore_ok {kind : WindowKind} {store : WindowStore}
    (hk : ∀ size, kind ≠ .count size) (hs : newStore kind operator maxKeys budgetKeys = .ok store) :
    ∃ state, store = .tumble state ∧ state.entries = .empty := by
  have ht : (MemoryState.new operator maxKeys budgetKeys).map .tumble = .ok store := by
    cases kind <;> first | exact hs | exact absurd rfl (hk _)
  unfold MemoryState.new at ht
  split_ifs at ht
  · simp [Except.map] at ht
  · exact ⟨_, (Except.ok.inj ht).symm, rfl⟩

/-! ### Steps of a row -/

theorem put_ok {V : Type} {s s' : MemoryState V} {lease : Result Unit} {value : V}
    (hn : s.entries.get? (encodeKeyValues key) = none) (h : s.put lease key value = .ok s') :
    s' = { s with entries := s.entries.insert (encodeKeyValues key) { key, value } } := by
  replace h := after_check (after_check h)
  rw [← Except.ok.inj h, hn]
  rfl

theorem ensureWindow_ok (hs : w.store = .tumble state)
    (h : w.ensureWindow leases i key start stop false = (.ok (), w')) :
    ∃ old index, Opens w.toWindowConfig ⟨state.entries, w.closedIndex⟩ key start stop old index ∧
      w' = w.withWindows state ⟨state.entries.insert (encodeKeyValues key) old, index⟩ := by
  simp only [ensureWindow, hs, MemoryState.get?] at h
  cases hg : state.entries.get? (encodeKeyValues key) with
  | some old =>
    simp only [hg, map_some, isSome_some, ↓reduceIte, Prod.mk.injEq, true_and] at h
    subst h
    refine ⟨old, _, .found hg, ?_⟩
    have hsa : state.entries.insert (encodeKeyValues key) old = state.entries := by
      refine ext_get? fun k => ?_
      rw [get?_insert]
      split_ifs with hk
      · rw [hk, hg]
      · rfl
    rw [withWindows, hsa, ← hs]
  | none =>
    simp only [hg, map_none, isSome_none, Bool.false_eq_true, ↓reduceIte, openWindow] at h
    cases he : w.emptyAccs with
    | error e => simp [he] at h
    | ok accs =>
      rw [he] at h
      dsimp only at h
      cases hp : state.put (leases (.entry i)) key
          { windowStart := start, windowEnd := stop, accs } with
      | error e => simp [hp] at h
      | ok state' =>
        rw [hp] at h
        cases hi : leases (.index i) with
        | error e => simp [hi] at h
        | ok u =>
          simp only [hi, indexInsert, Prod.mk.injEq, true_and] at h
          refine ⟨_, _, .fresh hg he, ?_⟩
          rw [← h, put_ok hg hp]
          rfl

/-- **A row folded into the window under a key.** -/
theorem foldRow_ok {old : Stored TumbleEntry} (hs : w.store = .tumble state)
    (hg : state.entries.get? (encodeKeyValues key) = some old) (h : w.foldRow leases i key row = (.ok (), w')) :
    ∃ accs, w.update row old.value.accs = .ok accs ∧
      w' = w.withWindows state ⟨state.entries.insert (encodeKeyValues key) (withAccs old accs), w.closedIndex⟩ := by
  simp only [foldRow, hs, MemoryState.get?, hg, map_some] at h
  cases ha : w.applyRow (leases (.update i)) row old.value.accs with
  | mk r accs =>
    rw [ha] at h
    obtain ⟨rfl, rfl⟩ : _ ∧ _ := by simpa using h
    refine ⟨accs, WindowConfig.applyRow_ok ha, ?_⟩
    rw [withWindows, MemoryState.set, modify_eq_insert hg]
    rfl

/-- **A row folded into one window** changes its accumulators by one update. -/
theorem upsertEtWindow_ok (het : w.spec.kind.usesEventTime = true) (hs : w.store = .tumble state)
    (h : w.upsertEtWindow leases i group start stop row = (.ok (), w')) :
    ∃ o, Fold w.toWindowConfig row (etStateKey group start) start stop ⟨state.entries, w.closedIndex⟩ o ∧
      w' = w.withWindows state o := by
  simp only [upsertEtWindow, not_isPtHopping het] at h
  rcases he : w.ensureWindow leases i (etStateKey group start) start stop false with ⟨_ | _, w₁⟩
  · simp [he] at h
  · obtain ⟨old, index, ho, rfl⟩ := ensureWindow_ok hs he
    rw [he] at h
    obtain ⟨accs, hu, rfl⟩ := foldRow_ok rfl (get?_insert_self _ _ _) h
    refine ⟨_, .mk ho hu, ?_⟩
    simp only [withWindows, insert_insert]

variable {windows : List (ℤ × ℤ)}

theorem upsertAll_ok (het : w.spec.kind.usesEventTime = true)
    (hs : w.store = .tumble state) (h : w.upsertAll leases group row i windows = (.ok (), w')) :
    ∃ o, Folds w.toWindowConfig row group windows ⟨state.entries, w.closedIndex⟩ o ∧ w' = w.withWindows state o := by
  induction windows generalizing w state i with
  | nil =>
    simp only [upsertAll, Prod.mk.injEq, true_and] at h
    refine ⟨_, .nil _, ?_⟩
    rw [withWindows, ← h, ← hs]
  | cons window rest ih =>
    obtain ⟨start, stop⟩ := window
    rw [upsertAll] at h
    rcases ho : w.upsertEtWindow leases i group start stop row with ⟨_ | _, w₁⟩
    · simp [ho] at h
    · rw [ho] at h
      obtain ⟨o, hf, rfl⟩ := upsertEtWindow_ok het hs ho
      obtain ⟨o', hr, rfl⟩ := ih (w := w.withWindows state o) het rfl h
      exact ⟨o', .cons hf hr, rfl⟩

/-! ### A row -/

/-- What the hub makes of the event time of a row. -/
def Observes (c : WindowConfig) (hub : WatermarkHub) (ts now : ℤ) (hub' : WatermarkHub) : Prop :=
  if c.externalWatermarks then hub' = hub
  else ∃ p, hub.observeEvent .single ts now = (.ok p, hub')

/-- What the watermark of the hub makes of the holdback, and where windows are to close. -/
def Advances (hub : WatermarkHub) (h : OutputHoldback) (pending : Option ℤ) (h' : OutputHoldback) : Prop :=
  match hub.progress with
  | none => pending = none ∧ h' = h
  | some wm => h.onWmIn wm = (.ok pending, h')

theorem observeRow_ok {ts : ℤ} (h : w.observeRow ts now = (.ok (), w')) :
    ∃ hub, Observes w.toWindowConfig w.hub ts now hub ∧ w' = { w with hub } := by
  unfold observeRow at h
  split_ifs at h with he
  · obtain rfl : w = w' := by simpa using h
    exact ⟨w.hub, by simp [Observes, he], rfl⟩
  · rcases ho : w.hub.observeEvent .single ts now with ⟨_ | _, hub⟩ <;> rw [ho] at h
    · simp [Except.map] at h
    · obtain rfl : { w with hub } = w' := by simpa [Except.map] using h
      exact ⟨hub, by simp [Observes, he, ho], rfl⟩

theorem drainWatermark_ok (hh : w.holdback = some h) (hd : w.drainWatermark = (.ok out, w')) :
    ∃ pending h', Advances w.hub h pending h' ∧ out = { WindowEmission.none with pendingClose := pending } ∧
      w' = { w with holdback := some h' } := by
  unfold drainWatermark at hd
  unfold Advances
  cases hp : w.hub.progress with
  | none =>
    simp only [hh, hp] at hd
    cases hd
    refine ⟨none, h, ⟨rfl, rfl⟩, rfl, ?_⟩
    rw [← hh]
  | some wm =>
    cases hon : h.onWmIn wm with
    | mk r h' =>
      simp only [hh, hp, hon, Prod.mk.injEq] at hd
      obtain ⟨ho, rfl⟩ := hd
      cases r with
      | error e => simp [Except.map] at ho
      | ok pending => exact ⟨pending, h', hon, (Except.ok.inj ho).symm, rfl⟩

/-- The rows a row adds to the late output. -/
def latesOf (row : Row) (opened : List (ℤ × ℤ)) : List Row := if opened = [] then [row] else []

theorem foldEtRow_ok (het : w.spec.kind.usesEventTime = true)
    (hs : w.store = .tumble state) (hh : w.holdback = some h)
    (hf : w.foldEtRow leases row windows = (.ok out, w')) : ∃ pending h' o,
      Folds w.toWindowConfig row (w.groupKey row) (stillOpen w.wmOut windows) ⟨state.entries, w.closedIndex⟩ o ∧
      Advances w.hub h pending h' ∧
      out = { WindowEmission.none with
        lates := latesOf row (stillOpen w.wmOut windows), pendingClose := pending } ∧
      w' = { w.withWindows state o with holdback := some h' } := by
  unfold foldEtRow at hf
  dsimp only at hf
  cases ha : w.upsertAll leases (w.groupKey row) row 0 (stillOpen w.wmOut windows) with
  | mk r w₁ =>
    rw [ha] at hf
    cases r with
    | error e => simp at hf
    | ok u =>
      obtain ⟨o, hfo, rfl⟩ := upsertAll_ok het hs ha
      dsimp only at hf
      rcases hd : (w.withWindows state o).drainWatermark with ⟨_ | _, w₂⟩ <;> rw [hd] at hf
      · simp [Except.map] at hf
      · obtain ⟨pending, h', had, rfl, rfl⟩ := drainWatermark_ok (w := w.withWindows state o) hh hd
        cases hf
        exact ⟨pending, h', o, hfo, had, rfl, rfl⟩

variable {size : Int64}

theorem onRowKind_et (hki : w.spec.kind.etWindow = some (size, slide)) (leases : Leases) (row : Row)
    (now : ℤ) : w.onRowKind leases row now = w.onEtRow leases row now size slide := by
  unfold onRowKind
  cases hk : w.spec.kind <;> simp only [hk, etWindow, some.injEq, Prod.mk.injEq, reduceCtorEq] at hki ⊢
  all_goals
    obtain ⟨rfl, rfl⟩ := hki
    rfl

theorem onRow_eq (hk : w.spec.kind.etWindow = some (size, slide))
    (h : w.onRow leases row now = (.ok out, w')) :
    ∃ scratch, onEtRow { w with scratchLeased := scratch } leases row now size slide = (.ok out, w') := by
  have het := usesEventTime_of_etWindow hk
  simp only [onRow, hoppingNow, not_isPtHopping het, Bool.false_eq_true, and_false, ↓reduceIte, leaseAgain] at h
  split_ifs at h
  · cases hl : leases .scratch with
    | error e => simp [hl] at h
    | ok u =>
      rw [hl] at h
      exact ⟨true, onRowKind_et (w := { w with scratchLeased := true }) hk leases row now ▸ h⟩
  · exact ⟨w.scratchLeased, onRowKind_et hk leases row now ▸ h⟩

/-- **What an accepted row does.** It is dropped as too far ahead, or the hub sees its time, it
is folded into those of its windows that are open, is late if none is, and the watermark
moves on. -/
theorem onRow_ok (hk : w.spec.kind.etWindow = some (size, slide)) (hs : w.store = .tumble state)
    (hh : w.holdback = some h) (hr : w.onRow leases row now = (.ok out, w')) :
    ∃ ts scratch, w.rowEventTime row = .ok ts ∧
      ((w.isFuture ts now = true ∧ out = { WindowEmission.none with futureDropped := 1 } ∧
          w' = { w with scratchLeased := scratch }) ∨
        (w.isFuture ts now = false ∧ ∃ windows hub pending h' o,
          Observes w.toWindowConfig w.hub ts now hub ∧ w.assigned ts size slide = .ok windows ∧
          Folds w.toWindowConfig row (w.groupKey row) (stillOpen w.wmOut windows)
            ⟨state.entries, w.closedIndex⟩ o ∧
          Advances hub h pending h' ∧
          out = { WindowEmission.none with
            lates := latesOf row (stillOpen w.wmOut windows), pendingClose := pending } ∧
          w' = { w.withWindows state o with hub, holdback := some h', scratchLeased := scratch })) := by
  obtain ⟨scratch, het⟩ := onRow_eq hk hr
  unfold onEtRow at het
  cases hts : w.rowEventTime row with
  | error e => simp [hts] at het
  | ok ts =>
    refine ⟨ts, scratch, rfl, ?_⟩
    simp only [hts] at het
    split_ifs at het with hf
    · obtain ⟨rfl, rfl⟩ : _ = out ∧ _ = w' := by simpa using het
      exact .inl ⟨hf, rfl, rfl⟩
    · refine .inr ⟨by simpa using hf, ?_⟩
      rcases ho : observeRow { w with scratchLeased := scratch } ts now with ⟨_ | _, w₁⟩
      · simp [ho] at het
      · obtain ⟨hub, hob, rfl⟩ := observeRow_ok ho
        simp only [ho] at het
        cases ha : w.assigned ts size slide with
        | error e => simp [ha] at het
        | ok windows =>
          simp only [ha] at het
          obtain ⟨pending, h', o, hfo, had, rfl, rfl⟩ := foldEtRow_ok
            (w := { w with scratchLeased := scratch, hub })
            (usesEventTime_of_etWindow hk) hs hh het
          exact ⟨windows, hub, pending, h', o, hob, rfl, hfo, had, rfl, rfl⟩

end WindowOperator

/-! ### Taking closed windows -/

variable {o o' : OpenWindows}

namespace OpenWindows

/-- The index lists exactly the windows, by their end and key. -/
structure Indexed (o : OpenWindows) : Prop where
  keyed : ∀ {k e}, o.entries.get? k = some e → encodeKeyValues e.key = k
  listed : ∀ {stop k key}, o.index.get? (toLex (stop, k)) = some key ↔
    ∃ e, o.entries.get? k = some e ∧ e.key = key ∧ e.value.windowEnd = stop

/-- Nothing is closed at `cut`. -/
def OpenAt (o : OpenWindows) (cut : ℤ) : Prop := ∀ k e, o.entries.get? k = some e → cut < e.value.windowEnd

def remove (o : OpenWindows) (k : Bytes) (stop : ℤ) : OpenWindows :=
  { entries := o.entries.erase k, index := o.index.erase (toLex (stop, k)) }

theorem Indexed.fold (ho : o.Indexed) (h : Fold c row key start stop o o') : o'.Indexed := by
  obtain ⟨hop, -⟩ := h
  cases hop with
  | found hg =>
    have hke := ho.keyed hg
    refine ⟨fun {k e} he => ?_, fun {stop k key} => ?_⟩
    · rw [get?_insert] at he
      split_ifs at he with hk
      · rw [← some.inj he, hk]
        exact hke
      · exact ho.keyed he
    · rw [ho.listed, get?_insert]
      split_ifs with hk
      · simp [hk, hg, withAccs]
      · rfl
  | fresh hg hem =>
    refine ⟨fun {k e} he => ?_, fun {stop' k key'} => ?_⟩
    · rw [get?_insert] at he
      split_ifs at he with hk
      · exact some.inj he ▸ hk.symm
      · exact ho.keyed he
    · rw [get?_insert, get?_insert]
      by_cases hk : k = encodeKeyValues key
      · -- no window had this key, so the index had no entry for it
        have hold : o.index.get? (toLex (stop', k)) = none := by
          refine Option.eq_none_iff_forall_ne_some.mpr fun key'' hke => ?_
          obtain ⟨e, he, -⟩ := ho.listed.mp hke
          rw [hk, hg] at he
          cases he
        by_cases hs : stop' = stop
        · simp [hk, hs, withAccs]
        · simp [hk, hs, withAccs, Ne.symm hs, hk ▸ hold]
      · have hne : toLex (stop', k) ≠ toLex (stop, encodeKeyValues key) := fun heq =>
          hk (congrArg (fun i => (ofLex i).2) heq)
        rw [if_neg hne, if_neg hk]
        exact ho.listed

theorem OpenAt.folds {windows : List (ℤ × ℤ)} (ho : o.OpenAt cut) (hop : ∀ p ∈ windows, cut < p.2)
    (h : Folds c row group windows o o') : o'.OpenAt cut := by
  induction h with
  | nil => exact ho
  | cons hf _ ih =>
    refine ih (fun k e he => ?_) fun p hp => hop p (mem_cons_of_mem _ hp)
    obtain ⟨hope, -⟩ := hf
    obtain ⟨-, rfl⟩ | ⟨-, he⟩ := get?_insert_eq_some.mp he
    · cases hope with
      | found hg =>
        have hlt := ho _ _ hg
        exact hlt
      | fresh => exact hop _ mem_cons_self
    · exact ho k e he

theorem Indexed.remove (ho : o.Indexed) {k : Bytes} {e : Stored TumbleEntry} (hg : o.entries.get? k = some e) :
    (o.remove k e.value.windowEnd).Indexed := by
  refine ⟨fun {k' e'} he => ?_, fun {stop' k' key'} => ?_⟩
  · exact ho.keyed (get?_erase_eq_some.mp he).2
  · simp only [OpenWindows.remove, get?_erase]
    obtain rfl | hk := eq_or_ne k' k
    · simp only [↓reduceIte, reduceCtorEq, false_and, exists_false, iff_false]
      split_ifs with heq
      · simp
      · rw [ho.listed]
        rintro ⟨e', he', -, hs⟩
        obtain rfl : e = e' := by simpa [hg] using he'
        exact heq (by rw [hs])
    · have hne : toLex (stop', k') ≠ toLex (e.value.windowEnd, k) := fun heq =>
        hk (congrArg (fun i => (ofLex i).2) heq)
      rw [if_neg hne, if_neg hk]
      exact ho.listed

/-- Windows closed at `cut` taken one after the other, with the rows they make. -/
inductive Takes (c : WindowConfig) (cut : ℤ) : OpenWindows → List Row → OpenWindows → Prop where
  | nil (o : OpenWindows) : Takes c cut o [] o
  | cons {o o' : OpenWindows} {k : Bytes} {e : Stored TumbleEntry} {rows : List Row}
      (hget : o.entries.get? k = some e) (hcut : e.value.windowEnd ≤ cut)
      (hrest : Takes c cut (o.remove k e.value.windowEnd) rows o') :
      Takes c cut o (resultRow (c.groupOf e.key) e.value.windowStart e.value.windowEnd e.value.accs :: rows) o'

theorem Takes.trans {o'' : OpenWindows} {rows' : List Row} (h : Takes c cut o rows o') (h' : Takes c cut o' rows' o'') :
    Takes c cut o (rows ++ rows') o'' := by
  induction h with
  | nil => exact h'
  | cons hg hc _ ih => exact .cons hg hc (ih h')

theorem Takes.indexed (h : Takes c cut o rows o') (ho : o.Indexed) : o'.Indexed := by
  induction h with
  | nil => exact ho
  | cons hg _ _ ih => exact ih (ho.remove hg)

theorem Takes.size (h : Takes c cut o rows o') (ho : o.Indexed) : o'.index.size + rows.length = o.index.size := by
  induction h with
  | nil => rfl
  | cons hg _ _ ih =>
    have he := size_erase (ho.listed.mpr ⟨_, hg, rfl, rfl⟩)
    have hr := ih (ho.remove hg)
    simp only [OpenWindows.remove, length_cons] at hr he ⊢
    omega

end OpenWindows

namespace WindowOperator

open OpenWindows

/-- The open windows of an operator with the store `state`. -/
def windows (w : WindowOperator) (state : MemoryState TumbleEntry) : OpenWindows := ⟨state.entries, w.closedIndex⟩

theorem nextClosedKey_cases (ho : (w.windows state).Indexed) (cut : ℤ) :
    (w.nextClosedKey cut = none ∧ (w.windows state).OpenAt cut) ∨
      ∃ k e, w.nextClosedKey cut = some e.key ∧ encodeKeyValues e.key = k ∧
        state.entries.get? k = some e ∧ e.value.windowEnd ≤ cut := by
  unfold nextClosedKey
  cases hf : w.closedIndex.first? with
  | none =>
    refine .inl ⟨rfl, fun k e he => ?_⟩
    obtain ⟨i, hi, -⟩ := first?_le (ho.listed.mpr ⟨e, he, rfl, rfl⟩)
    simp [windows, hf] at hi
  | some i =>
    obtain ⟨i, key⟩ := i
    dsimp only
    split_ifs with hc
    · obtain ⟨e, he, rfl, hs⟩ := ho.listed.mp (get?_of_first? hf)
      exact .inr ⟨_, e, rfl, ho.keyed he, he, hs.le.trans hc⟩
    · refine .inl ⟨rfl, fun k e he => ?_⟩
      obtain ⟨i', hi', hle⟩ := first?_le (ho.listed.mpr ⟨e, he, rfl, rfl⟩)
      obtain rfl : (i, key) = i' := by simpa [windows, hf] using hi'
      have : (ofLex i).1 ≤ e.value.windowEnd := (Prod.Lex.le_iff.mp hle).elim le_of_lt fun heq => heq.1.le
      omega

theorem takeClosedOne_ok {row : Option Row} (hs : w.store = .tumble state) (ho : (w.windows state).Indexed)
    (h : w.takeClosedOne cut = (row, w')) :
    ∃ o, Takes w.toWindowConfig cut (w.windows state) row.toList o ∧ w' = w.withWindows state o ∧
      (row = none → o.OpenAt cut) := by
  rw [takeClosedOne, takeClosedFor] at h
  obtain ⟨hn, hop⟩ | ⟨k, e, hk, rfl, hg, hc⟩ := nextClosedKey_cases ho cut
  · simp only [hn] at h
    cases h
    refine ⟨_, .nil _, ?_, fun _ => hop⟩
    rw [withWindows, windows, ← hs]
  · simp only [hk, hs, MemoryState.get?, hg, map_some] at h
    cases h
    exact ⟨_, .cons hg hc (.nil _), rfl, nofun⟩

/-- **Chunks are runs of closed windows.** -/
theorem takeClosedChunk_ok {n bytes : ℕ} {out : List Row} (hs : w.store = .tumble state)
    (ho : (w.windows state).Indexed) (h : takeClosedChunk sizes cut maxBytes n bytes out w = (rows, w')) :
    ∃ taken o, rows = out ++ taken ∧ Takes w.toWindowConfig cut (w.windows state) taken o ∧
      w' = w.withWindows state o ∧ (0 < n → rows = [] → o.OpenAt cut) := by
  induction n generalizing bytes out w state with
  | zero =>
    obtain ⟨rfl, rfl⟩ : out = rows ∧ w = w' := by simpa [takeClosedChunk] using h
    refine ⟨[], _, by simp, .nil _, ?_, nofun⟩
    rw [withWindows, windows, ← hs]
  | succ n ih =>
    rw [takeClosedChunk] at h
    have hse : w = w.withWindows state (w.windows state) := by rw [withWindows, windows, ← hs]
    cases hp : w.peekClosedBytes sizes cut with
    | none =>
      rw [hp] at h
      obtain ⟨rfl, rfl⟩ : out = rows ∧ w = w' := by simpa using h
      refine ⟨[], _, by simp, .nil _, hse, fun _ _ => ?_⟩
      -- the first closed window has an entry, so that there is a size to see
      obtain ⟨-, hop⟩ | ⟨k, e, hk, rfl, hg, -⟩ := nextClosedKey_cases ho cut
      · exact hop
      · simp [peekClosedBytes, hk, hs, MemoryState.get?, hg] at hp
    | some size =>
      simp only [hp] at h
      split_ifs at h with hf
      · obtain ⟨rfl, rfl⟩ : out = rows ∧ w = w' := by simpa using h
        exact ⟨[], _, by simp, .nil _, hse, fun _ hn => absurd hn hf.1⟩
      · cases hon : w.takeClosedOne cut with
        | mk row w₁ =>
          obtain ⟨o, ht, rfl, hop⟩ := takeClosedOne_ok hs ho hon
          rw [hon] at h
          cases row with
          | none =>
            obtain ⟨rfl, rfl⟩ : out = rows ∧ _ = w' := by simpa using h
            exact ⟨[], o, by simp, ht, rfl, fun _ _ => hop rfl⟩
          | some row =>
            obtain ⟨taken, o', rfl, hr, rfl, -⟩ := ih (w := w.withWindows state o) rfl
              (ht.indexed ho) h
            exact ⟨row :: taken, o', by simp, ht.trans hr, rfl, by simp⟩

theorem le_chunkCount {wire count n : ℕ} {entries : List ((ℤ ×ₗ Bytes) × List Scalar)}
    (h : chunkCount sizes state cut maxRows maxBytes wire count entries = .ok n) : count ≤ n := by
  induction entries generalizing wire count with
  | nil => exact (Except.ok.inj h).le
  | cons e rest ih =>
    rw [chunkCount] at h
    split_ifs at h
    · exact (Except.ok.inj h).le
    · cases hg : state.get? e.2 with
      | none => simp [hg] at h
      | some window =>
        simp only [hg] at h
        split_ifs at h
        · exact (Except.ok.inj h).le
        · exact (Nat.le_succ count).trans (ih h)

theorem nextClosedKey_of_chunkCount (h : chunkCount sizes state cut maxRows maxBytes 0 0
    w.closedIndex.entries = .ok 0) :
    w.nextClosedKey cut = none := by
  unfold nextClosedKey first?
  cases he : w.closedIndex.entries with
  | nil => rfl
  | cons e rest =>
    rw [he, chunkCount] at h
    split_ifs at h with hs
    · obtain hlt | hf := hs
      · simp [not_le.mpr hlt]
      · omega
    · cases hg : state.get? e.2 with
      | none => simp [hg] at h
      | some window =>
        simp only [hg, gt_iff_lt, lt_irrefl, false_and, ↓reduceIte] at h
        exact absurd (le_chunkCount h) (by omega)

/-- **A batch of finals** is a nonempty run of closed windows, or nothing is closed. -/
theorem takeClosedBatch_ok {batch : Option RowBatch} (het : w.spec.kind.usesEventTime = true)
    (hs : w.store = .tumble state) (ho : (w.windows state).Indexed)
    (h : w.takeClosedBatch sizes leases cut maxRows maxBytes = (.ok batch, w')) :
    ∃ o, Takes w.toWindowConfig cut (w.windows state) (batch.elim [] RowBatch.rows) o ∧
      w' = w.withWindows state o ∧ (batch = none → o.OpenAt cut) ∧
      ∀ b, batch = some b → b.rows ≠ [] := by
  simp only [takeClosedBatch, chunkCut, not_isPtHopping het, Bool.false_eq_true, ↓reduceIte, hs] at h
  cases hc : chunkCount sizes state cut maxRows maxBytes 0 0 w.closedIndex.entries with
  | error e => simp [hc] at h
  | ok count =>
    simp only [hc] at h
    split_ifs at h with hz
    · subst hz
      obtain ⟨rfl, rfl⟩ : none = batch ∧ w = w' := by simpa using h
      refine ⟨_, .nil _, by rw [withWindows, windows, ← hs], fun _ => ?_, nofun⟩
      obtain ⟨-, hop⟩ | ⟨k, e, hk, -⟩ := nextClosedKey_cases ho cut
      · exact hop
      · simp [nextClosedKey_of_chunkCount hc] at hk
    · cases hl : leases .chunk with
      | error e => simp [hl] at h
      | ok u =>
        simp only [hl] at h
        cases hch : takeClosedChunk sizes cut maxBytes (max count 1) 0 [] w with
        | mk rows w₁ =>
          obtain ⟨taken, o, rfl, ht, rfl, hop⟩ := takeClosedChunk_ok hs ho hch
          simp only [hch, Prod.mk.injEq] at h hop
          obtain ⟨hb, rfl⟩ := h
          obtain ⟨hn, rfl⟩ | ⟨hne, b, rfl, hr⟩ := WindowConfig.buildMeteredBatch_ok hb
          · exact ⟨o, hn ▸ ht, rfl, fun _ => hop (by omega) hn, nofun⟩
          · refine ⟨o, ?_, rfl, nofun, ?_⟩
            · rw [elim_some, hr]
              exact ht
            · rintro _ ⟨⟩
              exact hr ▸ hne

end WindowOperator

end Sparrow.Runtime
