import Sparrow.Checkpoint.AccumulatorScan
import Sparrow.Checkpoint.WindowFreeze

/-!
# Scanning a frozen window

`sparrow-runtime/src/checkpoint.rs`, `decode_freeze_metered_pt`: one function that either builds a
`WindowFreeze` from its bytes or only scans them. The scan meters what the freeze will take in
memory, so that the memory is granted before anything is built.

A vector is built with the capacity it needs, so that `resident_bytes`, which counts the slack of
the vectors, counts none here.

## What is proved

* `metered_agrees`, `sized_agrees` — a repetition whose elements are metered alike is metered as the fold of the
  sizes of what is built.
* `decodeFreezeMeteredPt_agrees` — the scan agrees with the decoder on every input.
-/

namespace Sparrow.Runtime

open Library Library.Parser Model List Parser

/-! ### Metered repetitions -/

theorem satAdd_satAdd (m a b : ℕ) : satAdd (satAdd m a) b = satAdd m (a + b) := by
  unfold satAdd
  omega

theorem satAdd_le (m a : ℕ) : satAdd m a ≤ usizeMax := min_le_right _ _

theorem foldl_satAdd {α : Type} (size : α → ℕ) (xs : List α) {m : ℕ} (hm : m ≤ usizeMax) :
    xs.foldl (fun m x => satAdd m (size x)) m = satAdd m (xs.map size).sum := by
  induction xs generalizing m with
  | nil => simp [satAdd, hm]
  | cons x rest ih => rw [foldl_cons, ih (satAdd_le _ _), satAdd_satAdd, map_cons, sum_cons]

section Metered

variable {α σ : Type} {size : α → ℕ} {meter : σ → ℕ}

/-- What was built so far: both passes have the same state, and its meter is the fold of the sizes. -/
def Metered (size : α → ℕ) (meter : σ → ℕ) (m : ℕ) (as : List (Option α)) (s t : σ) : Prop :=
  s = t ∧ ∃ xs : List α, as = xs.map some ∧ meter s = xs.foldl (fun m x => satAdd m (size x)) m

/-- **A metered repetition.** The scan meters each element with the size it has when it is built. -/
theorem metered_agrees {p q : σ → Parser SparrowError (Option α × σ)}
    (h : ∀ s, Agree (fun a b => a.2 = b.2 ∧ ∃ x, a.1 = some x ∧
      meter a.2 = satAdd (meter s) (size x)) (p s) (q s)) (n : ℕ)
    (s : σ) : Agree (fun a b => a.2 = b.2 ∧ ∃ xs : List α, a.1 = xs.map some ∧ xs.length = n ∧
      meter a.2 = xs.foldl (fun m x => satAdd m (size x)) (meter s)) (many p n s) (many q n s) := by
  have hst : Metered size meter (meter s) [] s s := ⟨rfl, [], rfl, rfl⟩
  have hste (as : List (Option α)) (s₁ t : σ) (hI : Metered size meter (meter s) as s₁ t) :
      Agree (fun a b => Metered size meter (meter s) (as ++ [a.1]) a.2 b.2) (p s₁) (q t) := by
    obtain ⟨rfl, xs, rfl, hs⟩ := hI
    refine (h s₁).mono fun a b ⟨hab, x, ha, hx⟩ => ⟨hab, xs ++ [x], ?_, ?_⟩
    · rw [ha, map_append]
      rfl
    · rw [hx, hs, foldl_append]
      rfl
  refine (Agree.many hste n hst).mono fun a b ⟨⟨hab, xs, has, hs⟩, hl⟩ => ⟨hab, xs, has, ?_, hs⟩
  rw [nil_append] at has
  rw [← hl, has, length_map]

theorem sized_agrees {p q : ℕ → Parser SparrowError (Option α × ℕ)}
    (h : ∀ m, Agree (fun a b => a.2 = b.2 ∧ ∃ x, a.1 = some x ∧ a.2 = satAdd m (size x)) (p m) (q m)) (n m : ℕ) :
    Agree (fun a b => a.2 = b.2 ∧ ∃ xs : List α, a.1 = xs.map some ∧ xs.length = n ∧
      a.2 = xs.foldl (fun m x => satAdd m (size x)) m) (many p n m) (many q n m) :=
  @metered_agrees α ℕ size id p q h n m

end Metered

/-! ### The freeze -/

/-- `size_of::<FrozenEntry>()`. -/
def frozenEntrySize : ℕ := 72

/-- `WindowFreeze::resident_bytes`. -/
def WindowFreeze.residentBytes (f : WindowFreeze) : ℕ :=
  f.entries.foldl (fun total e =>
    satAdd (satAdd (satAdd total (e.key.map Scalar.residentBytes).sum) (e.accs.map Accumulator.trackedBytes).sum) 128)
    (satAdd 128 (satMul f.entries.length frozenEntrySize))

/-- `decode_opt_i64`. -/
def decodeOptI64 : Parser SparrowError (Option ℤ) := do
  match ofLeBytes (← take 1 (invalidFrame "truncated optional i64")) with
  | 0 => return none
  | 1 => do return some (toI64 (ofLeBytes (← take 8 (invalidFrame "truncated optional i64 payload"))))
  | _ => fail (invalidFrame "invalid optional i64 tag")

/-- A value of a key; the state is the meter. -/
def keyFrame (materialize : Bool) (metered : ℕ) : Parser SparrowError (Option Scalar × ℕ) := do
  let (v, n) ← scalarFrame materialize
  return (v, satAdd metered n)

/-- An accumulator; the state is the meter. -/
def accFrame (codec : AccumulatorCodec) : Bool → ℕ → Parser SparrowError (Option Accumulator × ℕ)
  | true, metered => do
    let acc ← Accumulator.decodeCodec codec
    return (some acc, satAdd metered acc.trackedBytes)
  | false, metered => do
    let n ← Accumulator.skipEncodedCodec codec
    return (none, satAdd metered n)

/-- The window does not hold the processing-time cut `(now, hopping)`. -/
def offCut (ptCut : Option (ℤ × Bool)) (kind : ℕ) (windowStart windowEnd : ℤ) (count : ℕ) : Bool :=
  ptCut.any fun (now, hop) =>
    kind ≠ 0 ∨ (windowStart < 0 ∧ ¬ hop) ∨ windowStart > now ∨ windowEnd ≤ now ∨ count ≠ 0

def entryFrame (materialize : Bool) (kind : ℕ) (ptCut : Option (ℤ × Bool)) (codec : AccumulatorCodec) (metered : ℕ) :
    Parser SparrowError (Option FrozenEntry × ℕ) := do
  let metered := satAdd metered 128
  let nk ← ofLeBytes <$> take 2 (invalidFrame "truncated freeze entry")
  refuse (fun _ => 64 < nk) (.new .boundExceeded s!"freeze key arity {nk} exceeds 64")
  let (key, metered) ← many (keyFrame materialize) nk metered
  let body ← take (8 + 8 + 8 + 2) (invalidFrame "truncated freeze entry body")
  let windowStart := toI64 (ofLeBytes (body.take 8))
  let windowEnd := toI64 (ofLeBytes ((body.drop 8).take 8))
  let count := ofLeBytes ((body.drop 16).take 8)
  refuse (fun _ => offCut ptCut kind windowStart windowEnd count)
    (invalidFrame "PT window state disagrees with the processing-time cut")
  let na := ofLeBytes (body.drop 24)
  refuse (fun _ => 64 < na) (.new .boundExceeded s!"freeze accumulator count {na} exceeds 64")
  let (accs, metered) ← many (accFrame codec materialize) na metered
  let entry := { key := key.filterMap id, windowStart, windowEnd, count, accs := accs.filterMap id }
  return (if materialize then some entry else none, metered)

/-- `decode_freeze_metered_pt`: the freeze, without its windows in a scan, and its resident size. -/
def decodeFreezeMeteredPt (maxEntries : ℕ) (materialize : Bool) (ptCut : Option (ℤ × Bool)) (codec : AccumulatorCodec) :
    Parser SparrowError (WindowFreeze × ℕ) := do
  let (operator, slot, kind, n) ← parseHeader
  refuse (fun _ => maxEntries < n)
    (.new .boundExceeded s!"freeze entry count {n} exceeds max_state_keys {maxEntries}; refusing alloc")
  refuse (fun src => src.length < satMul n (2 + 8 + 8 + 8 + 2))
    (invalidFrame "truncated window freeze entries (declared count exceeds remaining bytes)")
  let (entries, metered) ← many (entryFrame materialize kind ptCut codec) n (satAdd 128 (satMul n frozenEntrySize))
  let wmIn ← decodeOptI64
  let wmOut ← decodeOptI64
  let lastEffective ← decodeOptI64
  let freeze := { operator, slot, kind, entries := entries.filterMap id, wmIn, wmOut, lastEffective }
  refuse (fun _ => ptCut.isSome && (wmIn.isSome || wmOut.isSome || lastEffective.isSome))
    (invalidFrame "PT freeze contains event-time watermarks")
  return (freeze, if materialize then freeze.residentBytes else metered)

/-! ### The scan agrees with the decoder -/

theorem keyFrame_agrees (m : ℕ) : Agree (fun a b => a.2 = b.2 ∧ ∃ v, a.1 = some v ∧ a.2 = satAdd m v.residentBytes)
    (keyFrame true m) (keyFrame false m) :=
  scalarFrame_agrees.bind fun _ _ ⟨hn, v, hv, hs⟩ => .pure ⟨congrArg (satAdd m) hn, v, hv, congrArg (satAdd m) hs.eq⟩

theorem accFrame_agrees (codec : AccumulatorCodec) (m : ℕ) :
    Agree (fun a b => a.2 = b.2 ∧ ∃ acc, a.1 = some acc ∧ a.2 = satAdd m acc.trackedBytes) (accFrame codec true m)
      (accFrame codec false m) :=
  (Accumulator.decodeCodec_agrees codec).bind fun acc _ h => .pure ⟨congrArg (satAdd m) h.symm, acc, rfl, rfl⟩

def FrozenEntry.size (e : FrozenEntry) : ℕ :=
  (e.key.map Scalar.residentBytes).sum + (e.accs.map Accumulator.trackedBytes).sum + 128

theorem filterMap_map_some {α : Type} (xs : List α) : (xs.map some).filterMap id = xs := by
  induction xs with
  | nil => rfl
  | cons x rest _ => simp

theorem entryFrame_agrees (kind : ℕ) (ptCut : Option (ℤ × Bool)) (codec : AccumulatorCodec) (m : ℕ) :
    Agree (fun a b => a.2 = b.2 ∧ ∃ e, a.1 = some e ∧ a.2 = satAdd m e.size) (entryFrame true kind ptCut codec m)
      (entryFrame false kind ptCut codec m) := by
  refine .same fun nk => .same fun _ => ?_
  refine (sized_agrees keyFrame_agrees nk (satAdd m 128)).bind fun a b ⟨hab, key, hk, _, hm⟩ => ?_
  refine .same fun body => .same fun _ => .same fun _ => ?_
  rw [← hab]
  refine (sized_agrees (accFrame_agrees codec) _ a.2).bind fun a' b' ⟨ha', accs, ha, _, hm'⟩ => .pure ⟨ha', _, rfl, ?_⟩
  rw [hk, ha, filterMap_map_some, filterMap_map_some, hm', hm, foldl_satAdd _ _ (satAdd_le _ _),
    foldl_satAdd _ _ (satAdd_le _ _), satAdd_satAdd, satAdd_satAdd]
  exact congrArg (satAdd m) (by simp only [FrozenEntry.size]; omega)

/-- **The scan of a window freeze** agrees with the decoder on every input, and meters its resident size. -/
theorem decodeFreezeMeteredPt_agrees (maxEntries : ℕ) (ptCut : Option (ℤ × Bool)) (codec : AccumulatorCodec) :
    Agree (fun a b => a.2 = b.2 ∧ a.2 = a.1.residentBytes) (decodeFreezeMeteredPt maxEntries true ptCut codec)
      (decodeFreezeMeteredPt maxEntries false ptCut codec) := by
  refine .same fun (operator, slot, kind, n) => .same fun _ => .same fun _ => ?_
  refine (sized_agrees (entryFrame_agrees kind ptCut codec) n _).bind fun a b ⟨hab, xs, hxs, hl, hm⟩ => ?_
  refine .same fun wmIn => .same fun wmOut => .same fun lastEffective => .same fun _ => .pure ⟨?_, rfl⟩
  simp only [WindowFreeze.residentBytes, hxs, filterMap_map_some, hl, ← hab, hm, if_true]
  have hs : (fun (total : ℕ) (e : FrozenEntry) => satAdd (satAdd (satAdd total (e.key.map Scalar.residentBytes).sum)
      (e.accs.map Accumulator.trackedBytes).sum) 128) = fun total e => satAdd total e.size := by
    funext total e
    rw [satAdd_satAdd, satAdd_satAdd]
    rfl
  rw [hs]
  rfl

-- one window without a key, with a count of one row, and no watermarks
example : (decodeFreezeMeteredPt 1 false none .window ([1, 0, 0, 0, 1, 0, 0, 1, 0, 0, 0] ++ [0, 0] ++ leBytes 8 0 ++
    leBytes 8 10 ++ leBytes 8 1 ++ [1, 0] ++ (1 :: leBytes 8 1 ++ leBytes 8 1 ++ [1]) ++ [0, 0, 0, 9])).toOption.map
      (fun r => (r.1.2, r.2)) = some (376, [9]) := by decide

end Sparrow.Runtime
