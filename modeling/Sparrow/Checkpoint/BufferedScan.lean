import Sparrow.Checkpoint.WindowScan
import Sparrow.Runtime.BufferedWindow

/-!
# Scanning a frozen buffered window

`sparrow-runtime/src/buffered_window.rs`, `BufferedFreeze::decode_metered`: the frame of a sliding or
session window, built or only scanned. Its resident size is the credit that `restore_freeze`
acquires when it puts the retained inputs back.

## What is proved

* `scan_agrees` — every scan of a checkpoint agrees with its decoder on every input.
* `eventFrame_agrees`, `groupFrame_agrees` — the scan meters the credits of an input and of a group.
-/

namespace Sparrow.Runtime

open Library Library.Parser Model Parser

/-! ### The freeze -/

structure BufferedGroupFreeze where
  key : List Scalar
  sequence : ℕ
  events : List (ℕ × List Scalar)
  times : List (ℤ × Bool)

/-- The frozen watermark generator. -/
structure BufferedClockFreeze where
  idle : Bool
  wm : Option ℤ
  maxEventTime : Option ℤ
  lastEffective : Option ℤ

/-- A frozen buffered window. -/
structure BufferedFreeze where
  operator : ℕ
  slot : ℕ
  kind : ℕ
  size : ℕ
  params : Int64 × Int64
  groups : List BufferedGroupFreeze
  clock : Option BufferedClockFreeze
  ptNow : Option ℤ
  resident : ℕ

def BufferedGroupFreeze.credits (g : BufferedGroupFreeze) : List ℕ :=
  keyCredit g.key :: g.events.map fun e => eventCredit e.2

/-- The credits that `restore_freeze` acquires, in order. -/
def BufferedFreeze.restoreCredits (f : BufferedFreeze) : List ℕ := f.groups.flatMap BufferedGroupFreeze.credits

/-! ### Reading it -/

structure BufferedFrame where
  et : Bool
  pt : Bool
  slidingKind : Bool
  size : ℕ

namespace BufferedFrame

def timed (f : BufferedFrame) : Bool := f.et || f.pt

def eventMin (f : BufferedFrame) : ℕ := if f.timed then 8 + 8 + 1 + 2 else 8 + 2

end BufferedFrame

/-- The next `n` bytes, as a number. -/
def bufferedWord (n : ℕ) : Parser SparrowError ℕ :=
  ofLeBytes <$> take n (invalidFrame "truncated buffered window freeze")

/-- The next eight bytes, as an `i64`. -/
def bufferedI64 : Parser SparrowError Int64 := (fun n => (UInt64.ofNat n).toInt64) <$> bufferedWord 8

/-- A value of a key or of an input; the state is its credit so far. -/
def bufferedValue (key materialize : Bool) (n : ℕ) : Parser SparrowError (Option Scalar × ℕ) := do
  let before ← get
  let (v, r) ← scalarFrame materialize
  refuse (fun _ => before.head?.any fun tag => 7 < tag) (invalidFrame "unsupported scalar in buffered window freeze")
  return (v, satAdd n (if key then satMul r 4 else r))

/-- What the inputs of a group are checked against. -/
structure EventScan where
  index : ℕ
  previous : Option (ℤ × ℕ)
  seenPending : Bool
  seqs : List ℕ
  maxTime : Option ℤ

def pendingFlag (slidingKind : Bool) (flag : ℕ) : Parser SparrowError Bool :=
  match flag with
  | 0 => pure false
  | 1 => if slidingKind then pure true else fail (invalidFrame "invalid pending flag in buffered ET freeze")
  | _ => fail (invalidFrame "invalid pending flag in buffered ET freeze")

/-- An input is out of order or out of range. -/
def EventScan.misplaced (s : EventScan) (sequence : ℕ) (t : ℤ) (seq : ℕ) (pending : Bool) : Bool :=
  t < 0 ∨ seq = 0 ∨ sequence < seq ∨ (s.previous.any fun p => t < p.1 ∨ (t = p.1 ∧ seq ≤ p.2)) ∨
    (s.seenPending ∧ ¬ pending)

variable (f : BufferedFrame)

def eventHead (sequence first : ℕ) (s : EventScan) :
    Parser SparrowError (ℕ × Option (ℤ × Bool) × EventScan) :=
  if f.timed then do
    let t : ℤ ← (fun v : Int64 => v.toInt) <$> bufferedI64
    let seq ← bufferedWord 8
    let pending ← pendingFlag f.slidingKind (← bufferedWord 1)
    refuse (fun _ => s.misplaced sequence t seq pending)
      (invalidFrame "buffered ET events are out of order or out of range")
    return (seq, some (t, pending), { s with
        previous := some (t, seq), seenPending := s.seenPending || pending, seqs := s.seqs ++ [seq]
        maxTime := some (s.maxTime.elim t (max t)) })
  else do
    let seq ← bufferedWord 8
    refuse (fun _ => seq ≠ first + s.index)
      (invalidFrame "buffered window event sequences are not the contiguous tail")
    return (seq, none, s)

/-- A retained input; the state is what it is checked against and the credits so far. -/
def eventFrame (materialize : Bool) (sequence first : ℕ) (s : EventScan × ℕ) :
    Parser SparrowError (Option ((ℕ × List Scalar) × Option (ℤ × Bool)) × EventScan × ℕ) := do
  let (seq, time, scan) ← eventHead f sequence first s.1
  let nv ← bufferedWord 2
  refuse (fun _ => 64 < nv) (.new .boundExceeded "buffered freeze value arity exceeds 64")
  let (values, bytes) ← many (bufferedValue false materialize) nv (satAdd eventFixed (satMul nv scalarSize))
  return (if materialize then some ((seq, values.filterMap id), time) else none,
    { scan with index := scan.index + 1 }, satAdd s.2 bytes)

/-- Two inputs have one sequence number: two neighbours of the sorted list. -/
def duplicated (seqs : List ℕ) : Bool :=
  let sorted := seqs.mergeSort
  (sorted.zip sorted.tail).any fun w => w.1 = w.2

/-- A group; the state is the latest time and the credits so far. -/
def groupFrame (materialize : Bool) (s : Option ℤ × ℕ) :
    Parser SparrowError (Option BufferedGroupFreeze × Option ℤ × ℕ) := do
  let nk ← bufferedWord 2
  refuse (fun _ => 64 < nk) (.new .boundExceeded "buffered freeze key arity exceeds 64")
  let (key, keyBytes) ← many (bufferedValue true materialize) nk keyFixed
  let total := satAdd s.2 keyBytes
  let sequence ← bufferedWord 8
  let ne ← bufferedWord 4
  refuse (fun _ => sequence = 0 ∨ i64Max < sequence ∨ (¬ f.timed ∧ ne ≠ min sequence f.size) ∨
      (f.timed ∧ (ne = 0 ∨ sequence < ne)))
    (invalidFrame "buffered window retained input count disagrees with its sequence")
  refuse (fun src => src.length < satMul ne f.eventMin)
    (invalidFrame "declared buffered event count exceeds remaining bytes")
  let (events, scan, total) ← many (eventFrame f materialize sequence (sequence - ne + 1)) ne
    ({ index := 0, previous := none, seenPending := false, seqs := [], maxTime := s.1 }, total)
  refuse (fun _ => f.timed && duplicated scan.seqs) (invalidFrame "buffered ET event sequences are duplicated")
  let built := events.filterMap id
  let group : BufferedGroupFreeze :=
    { key := key.filterMap id, sequence, events := built.map (·.1), times := built.filterMap (·.2) }
  return (if materialize then some group else none, scan.maxTime, total)

/-- An optional time, which is not negative. -/
def clockTime : Parser SparrowError (Option ℤ) := do
  match ← bufferedWord 1 with
  | 0 => return none
  | 1 => do
    let v ← bufferedI64
    refuse (fun _ => v.toInt < 0) (invalidFrame "negative watermark/event time in buffered ET freeze")
    return some v.toInt
  | _ => fail (invalidFrame "invalid optional tag in buffered ET freeze")

def clockFrame (entries : ℕ) (maxTime : Option ℤ) : Parser SparrowError BufferedClockFreeze := do
  let flag ← bufferedWord 1
  refuse (fun _ => 1 < flag) (invalidFrame "invalid input activity in buffered ET freeze")
  let wm ← clockTime
  let maxEventTime ← clockTime
  let lastEffective ← clockTime
  refuse (fun _ => wm.isSome ≠ maxEventTime.isSome ∨
      (wm.any fun w => maxEventTime.any fun m => m < w) ∨ (lastEffective.any fun l => wm.any fun w => w < l) ∨
      (lastEffective.isSome ∧ wm.isNone) ∨ (0 < entries ∧ maxEventTime.isNone))
    (invalidFrame "inconsistent watermark state in buffered ET freeze")
  refuse (fun _ => maxTime.any fun t => maxEventTime.all fun m => m < t)
    (invalidFrame "buffered ET event time exceeds max observed event time")
  return { idle := flag = 1, wm, maxEventTime, lastEffective }

def ptNowFrame (maxTime : Option ℤ) : Parser SparrowError ℤ := do
  let now ← bufferedI64
  refuse (fun _ => now.toInt < 0 ∨ maxTime.any fun t => now.toInt < t)
    (invalidFrame "PT buffered event time exceeds the frame's logical clock")
  return now.toInt

/-- A part that only some kinds of window have. -/
def onlyIf {α : Type} (c : Bool) (p : Parser SparrowError α) : Parser SparrowError (Option α) :=
  if c then some <$> p else pure none

/-- The parameters of the window: the size of a sliding count, or the two of a window over time. -/
def paramsFrame (et pt slidingKind : Bool) : Parser SparrowError (ℕ × Int64 × Int64) :=
  if et || pt then do
    let a ← bufferedI64
    let b ← bufferedI64
    let valid := if slidingKind then WindowKind.checkSliding a b else WindowKind.checkSession a b
    refuse (fun _ => valid.toOption.isNone) (invalidFrame "invalid ET/PT sliding/session parameters in freeze")
    return (0, a, b)
  else do
    let size ← bufferedWord 8
    refuse (fun _ => size = 0 ∨ i64Max < size) (invalidFrame "invalid sliding count size in freeze")
    return (size, 0, 0)

/-- `BufferedFreeze::decode_metered`: the freeze, without its groups in a scan. -/
def BufferedFreeze.decodeMetered (maxGroups : ℕ) (materialize : Bool) : Parser SparrowError BufferedFreeze := do
  let (operator, slot, kind, entries) ← parseHeader
  let et : Bool := kind = 7 ∨ kind = 9
  let pt : Bool := kind = 6 ∨ kind = 8
  let slidingKind : Bool := kind = 7 ∨ kind = 6
  refuse (fun _ => ¬ (kind = 5 ∨ et ∨ pt) ∨ slot ≠ 1)
    (invalidFrame "buffered window freeze kind/slot has no codec 4 grammar")
  refuse (fun _ => maxGroups < entries)
    (.new .boundExceeded "buffered window freeze group count exceeds max_state_keys")
  let magic ← take 4 (invalidFrame "truncated buffered window freeze")
  refuse (fun _ => magic ≠ [0x42, 0x57, 0x46, 0x31]) (invalidFrame "buffered window freeze lacks BWF1 grammar")
  let (size, params) ← paramsFrame et pt slidingKind
  let f : BufferedFrame := { et, pt, slidingKind, size }
  refuse (fun src => src.length < satMul entries (2 + 8 + 4 + f.eventMin))
    (invalidFrame "declared buffered group count exceeds remaining bytes")
  let (groups, maxTime, total) ← many (groupFrame f materialize) entries (none, 0)
  let clock ← onlyIf et (clockFrame entries maxTime)
  let ptNow ← onlyIf pt (ptNowFrame maxTime)
  return { operator, slot, kind, size, params, groups := groups.filterMap id, clock, ptNow, resident := satAdd total 128 }

/-! ### The scan agrees with the decoder -/

theorem bufferedValue_agrees (key : Bool) (m : ℕ) :
    Agree (fun a b => a.2 = b.2 ∧ ∃ v, a.1 = some v ∧
        a.2 = satAdd m (if key then satMul v.residentBytes 4 else v.residentBytes))
      (bufferedValue key true m) (bufferedValue key false m) := by
  refine .same fun before => scalarFrame_agrees.bind fun a b ⟨hn, v, hv, hs⟩ => .same fun _ => .pure ⟨?_, v, hv, ?_⟩
  · simp only [hn]
  · simp only [hs.eq]

theorem eventFrame_agrees (sequence first : ℕ) (s : EventScan × ℕ) :
    Agree (fun a b => a.2 = b.2 ∧ ∃ x, a.1 = some x ∧ a.2.2 = satAdd s.2 (eventCredit x.1.2))
      (eventFrame f true sequence first s) (eventFrame f false sequence first s) := by
  refine .same fun (seq, time, scan) => .same fun nv => .same fun _ => ?_
  refine (sized_agrees (bufferedValue_agrees false) nv _).bind fun a b ⟨hab, xs, hxs, hl, hm⟩ => .pure ⟨?_, _, rfl, ?_⟩
  · simp only [hab]
  · simp only [hxs, filterMap_map_some, hm, ← hl]
    rfl

theorem groupFrame_agrees (s : Option ℤ × ℕ) :
    Agree (fun a b => a.2 = b.2 ∧ ∃ g, a.1 = some g ∧ a.2.2 = satAdd s.2 g.credits.sum) (groupFrame f true s)
      (groupFrame f false s) := by
  refine .same fun nk => .same fun _ => ?_
  refine (sized_agrees (bufferedValue_agrees true) nk keyFixed).bind fun a b ⟨hab, key, hk, _, hm⟩ => ?_
  refine .same fun sequence => .same fun ne => .same fun _ => .same fun _ => ?_
  rw [← hab]
  refine (metered_agrees (eventFrame_agrees f sequence (sequence - ne + 1)) ne _).bind
    fun (events, scan, total) (events', scan', total') ⟨ha', xs, hxs, _, hm'⟩ => ?_
  obtain ⟨rfl, rfl⟩ : scan = scan' ∧ total = total' := by simpa using ha'
  have hxs : events = xs.map some := hxs
  refine .same fun _ => .pure ⟨rfl, _, rfl, ?_⟩
  have he : ((events.filterMap id).map (·.1)).map (fun e => eventCredit e.2) = xs.map fun x => eventCredit x.1.2 := by
    rw [hxs, filterMap_map_some, List.map_map]
    rfl
  have hke : keyCredit (a.1.filterMap id) = a.2 := by
    rw [hk, filterMap_map_some, hm]
    rfl
  simp only [BufferedGroupFreeze.credits, List.sum_cons, he, hke]
  rw [← satAdd_satAdd, ← foldl_satAdd _ _ (satAdd_le _ _)]
  exact hm'

/-- **The scan of a buffered freeze** agrees with the decoder on every input, and meters the credits of the restore. -/
theorem BufferedFreeze.decodeMetered_agrees (maxGroups : ℕ) :
    Agree (fun a b => a.resident = b.resident ∧ a.resident = satAdd 128 a.restoreCredits.sum)
      (BufferedFreeze.decodeMetered maxGroups true) (BufferedFreeze.decodeMetered maxGroups false) := by
  refine .same fun (operator, slot, kind, entries) => .same fun _ => .same fun _ => .same fun magic => .same fun _ => ?_
  refine .same fun (size, params) => .same fun _ => ?_
  refine (metered_agrees (groupFrame_agrees _) entries (none, 0)).bind
    fun (groups, maxTime, total) (groups', maxTime', total') ⟨hab, xs, hxs, _, hm⟩ => ?_
  obtain ⟨rfl, rfl⟩ : maxTime = maxTime' ∧ total = total' := by simpa using hab
  have hxs : groups = xs.map some := hxs
  refine .same fun clock => .same fun ptNow => .pure ⟨rfl, ?_⟩
  have ht : total = satAdd 0 (xs.map fun g => g.credits.sum).sum := by
    rw [← foldl_satAdd _ _ (Nat.zero_le _)]
    exact hm
  have hs : (xs.flatMap BufferedGroupFreeze.credits).sum = (xs.map fun g => g.credits.sum).sum := by
    rw [List.flatMap, List.sum_flatten, List.map_map]
    rfl
  simp only [BufferedFreeze.restoreCredits, hxs, filterMap_map_some, hs, ht]
  rw [satAdd_satAdd, satAdd, satAdd, zero_add, add_comm]

/-- **The scan and the decoder agree on every byte string**: they accept the same ones, read the same part of them
and report the same size, that of what was built. -/
theorem scan_agrees (limit : ℕ) :
    (∀ ptCut codec, Agree (fun a b => a.2 = b.2 ∧ a.2 = a.1.residentBytes)
      (decodeFreezeMeteredPt limit true ptCut codec)
      (decodeFreezeMeteredPt limit false ptCut codec)) ∧
    Agree (fun a b => a.resident = b.resident ∧ a.resident = satAdd 128 a.restoreCredits.sum)
      (BufferedFreeze.decodeMetered limit true) (BufferedFreeze.decodeMetered limit false) :=
  ⟨decodeFreezeMeteredPt_agrees limit, BufferedFreeze.decodeMetered_agrees limit⟩

end Sparrow.Runtime
