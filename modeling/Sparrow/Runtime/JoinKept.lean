import Sparrow.Runtime.JoinRuns
import Sparrow.Runtime.JoinSteps

/-!
# What a durable join retains

The state a barrier finds: rows as they were admitted, numbered, within the bounds; the
keys counted; nothing expired; the inputs' watermarks as the operator's, and the output
watermark sent. This is what a restore checks or computes again.

## What is proved

* `Kept.push`, `Kept.close`, `Kept.advance` — the operator's part along its steps.
* `JoinState.Settled.item` — all of it after every item of a round.
-/

namespace Sparrow.Runtime

open Library Model Plan SortedMap BoundedJoin Emits

/-- A row of a durable input: it fits its schema, and no value is dynamic. -/
def JoinConfig.Storable (c : JoinConfig) (side : Side) (row : Row) : Prop :=
  checkRow (c.schemas side) row = .ok () ∧ ∀ v ∈ row.values, v.isDynamic = false

/-- A retained row is the record of an admitted one; only what can match is marked. -/
structure JoinRecord.Held (c : JoinConfig) (side : Side) (id : ℕ) (r : JoinRecord) : Prop where
  storable : c.Storable side r.row
  time_eq : asEventTimeMicros (r.row.values.getD (c.timeIndices side) .null) = some r.time
  nonneg : 0 ≤ r.time
  closes : c.closeTime side r.time = some r.expires
  record : r = { c.recordOf side r.row r.time r.expires id with matched := r.matched }
  matchable : r.matched = true → r.matchable = true

namespace BoundedJoin

variable {j j' : BoundedJoin} {side : Side}

def countOn (rows : SortedMap ℕ JoinRecord) (key : Bytes) : ℕ :=
  (rows.entries.map fun e => if e.2.key = key then 1 else 0).sum

def keyCount (j : BoundedJoin) (key : Bytes) : ℕ := countOn (j.rows .left) key + countOn (j.rows .right) key

theorem keyCount_eq (side : Side) (key : Bytes) :
    j.keyCount key = countOn (j.rows side) key + countOn (j.rows side.other) key := by
  cases side
  · rfl
  · exact Nat.add_comm _ _

theorem retained_eq (side : Side) : j.retained = (j.rows side).size + (j.rows side.other).size := by
  cases side
  · rfl
  · exact Nat.add_comm _ _

/-- The keys are those of the retained rows, with their numbers. -/
def Counted (j : BoundedJoin) : Prop :=
  ∀ key, j.keys.get? key = if j.keyCount key = 0 then none else some (j.keyCount key)

/-- **The operator's part of the invariant.** -/
structure Kept (j : BoundedJoin) : Prop where
  held : ∀ side id r, (j.rows side).get? id = some r → r.Held j.toJoinConfig side id
  numbered : ∀ side id r, (j.rows side).get? id = some r → 1 ≤ id ∧ id ≤ j.sequence side
  room : ∀ side, (j.rows side).size ≤ j.spec.maxRowsPerSide
  total : j.durable = true → j.retained ≤ j.maxKeys
  sequence : ∀ side, (j.sequence side : ℤ) ≤ i64Max
  keys : j.Counted

theorem Kept.init (hro : ∀ side, j.rows side = .empty) (hk : j.keys = .empty) (hs : ∀ side, j.sequence side = 0) :
    j.Kept := by
  have hn : ∀ side id r, (j.rows side).get? id ≠ some r := fun side id r hr => by
    rw [hro] at hr
    cases hr
  refine ⟨fun side id r hr => absurd hr (hn side id r), fun side id r hr => absurd hr (hn side id r), fun side => ?_,
    fun _ => ?_, fun side => ?_, fun key => ?_⟩
  · rw [hro]
    exact Nat.zero_le _
  · rw [retained, hro, hro]
    exact Nat.zero_le _
  · rw [hs]
    decide
  · rw [hk, keyCount, hro, hro]
    rfl

/-! ### A row arrives -/

theorem Kept.mark {rows : SortedMap ℕ JoinRecord} {record : JoinRecord} (h : j.Kept)
    (hro : ∀ o, rows.get? o = ((j.rows side).get? o).map (j.marked side.other record 0 o)) :
    (j.setRows side rows).Kept := by
  have he := entries_of_get?_map hro
  have hs : rows.size = (j.rows side).size := by simp [size, he]
  have ho : (j.setRows side rows).rows side.other = j.rows side.other := by simp [setRows]
  have hk : ∀ o r, (j.marked side.other record 0 o r).key = r.key := fun o r => by
    unfold marked
    split_ifs <;> rfl
  have hco : ∀ key, countOn rows key = countOn (j.rows side) key := fun key => by
    simp only [countOn, he, List.map_map, Function.comp_def, hk]
  have hg : ∀ side' id r, ((j.setRows side rows).rows side').get? id = some r →
      ∃ r₀ m, (j.rows side').get? id = some r₀ ∧ r = { r₀ with matched := m } ∧
        (m = true → r₀.matched = true ∨ r₀.matchable = true) := by
    intro side' id r hr
    obtain rfl | rfl := side.eq_or_eq_other side'
    · rw [setRows_rows, hro] at hr
      obtain ⟨r₀, hr₀, rfl⟩ := Option.map_eq_some_iff.mp hr
      unfold marked
      split_ifs with hma
      · refine ⟨r₀, true, hr₀, rfl, fun _ => .inr ?_⟩
        simp only [JoinConfig.matchRecords, Bool.and_eq_true] at hma
        exact hma.2.1.1.2
      · exact ⟨r₀, r₀.matched, hr₀, rfl, .inl⟩
    · have hr : (j.rows side.other).get? id = some r := by simpa [setRows] using hr
      exact ⟨r, r.matched, hr, rfl, .inl⟩
  refine ⟨fun side' id r hr => ?_, fun side' id r hr => ?_, fun side' => ?_, fun hd => ?_, h.sequence, fun key => ?_⟩
  · obtain ⟨r₀, m, hr₀, rfl, hm⟩ := hg side' id r hr
    obtain ⟨hst, ht, hn, hc, hre, hmat⟩ := h.held side' id r₀ hr₀
    refine ⟨hst, ht, hn, hc, ?_, fun hmatc => (hm hmatc).elim hmat fun h => h⟩
    rw [hre]
    rfl
  · obtain ⟨r₀, m, hr₀, -, -⟩ := hg side' id r hr
    exact h.numbered side' id r₀ hr₀
  · obtain rfl | rfl := side.eq_or_eq_other side'
    · rw [setRows_rows, hs]
      exact h.room _
    · rw [ho]
      exact h.room _
  · rw [retained_eq side, setRows_rows, hs, ho, ← retained_eq]
    exact h.total hd
  · rw [keyCount_eq side, setRows_rows, hco, ho, ← keyCount_eq]
    exact h.keys key

variable {pending : Pending}

theorem Counted.insert (h : j.Counted) (hn : pending.newKey = (j.keys.get? pending.record.key).isNone)
    (hf : (j.rows side).get? pending.record.ordinal = none) : (j.insert side pending).Counted := by
  intro key
  have ho : (j.insert side pending).rows side.other = j.rows side.other := by simp [BoundedJoin.insert, setRows]
  have how : (j.insert side pending).rows side = (j.rows side).insert pending.record.ordinal pending.record := by
    simp [BoundedJoin.insert, setRows]
  have hc : (j.insert side pending).keyCount key = j.keyCount key + if pending.record.key = key then 1 else 0 := by
    rw [keyCount_eq side, keyCount_eq side, how, ho, countOn, sum_insert_of_none hf, ← countOn]
    dsimp only
    omega
  have hkey : (j.insert side pending).keys.get? key =
      if key = pending.record.key then some (j.keyCount key + 1) else j.keys.get? key := by
    have hk := h pending.record.key
    simp only [BoundedJoin.insert, get?_modify, hn]
    obtain rfl | hke := eq_or_ne key pending.record.key
    · by_cases hz : j.keyCount pending.record.key = 0
      · rw [if_pos hz] at hk
        simp [hk, hz]
      · rw [if_neg hz] at hk
        simp [hk]
    · rw [if_neg hke, if_neg hke]
      split_ifs
      · exact get?_insert_of_ne _ _ hke
      · rfl
  rw [hkey, hc, h]
  by_cases hke : key = pending.record.key
  · simp [hke]
  · simp [hke, Ne.symm hke]

variable {time expires : ℤ} {row : Row}

theorem Kept.insert (h : j.Kept) (ha : j.Admits side row time expires) (hst : j.Storable side row)
    (hre : pending.record = { j.recordOf side row time expires (j.sequence side + 1) with
      matched := pending.record.matched })
    (hm : pending.record.matched = true → pending.record.matchable = true)
    (hn : pending.newKey = (j.keys.get? pending.record.key).isNone) : (j.insert side pending).Kept := by
  have hor : pending.record.ordinal = j.sequence side + 1 := by rw [hre]; rfl
  have hf : (j.rows side).get? pending.record.ordinal = none := by
    cases hr : (j.rows side).get? pending.record.ordinal with
    | none => rfl
    | some r =>
      have := (h.numbered side _ r hr).2
      omega
  have ho : (j.insert side pending).rows side.other = j.rows side.other := by simp [BoundedJoin.insert, setRows]
  have how : (j.insert side pending).rows side = (j.rows side).insert pending.record.ordinal pending.record := by
    simp [BoundedJoin.insert, setRows]
  have hsi := size_insert_of_none hf pending.record
  have hse : ∀ side', j.sequence side' ≤ (j.insert side pending).sequence side' := fun side' => by
    obtain rfl | hs := eq_or_ne side' side
    · simp [insert, hor]
    · simp [BoundedJoin.insert, setRows, hs]
  refine ⟨fun side' id r hr => ?_, fun side' id r hr => ?_, fun side' => ?_, fun hd => ?_, fun side' => ?_,
    h.keys.insert hn hf⟩
  · obtain rfl | rfl := side.eq_or_eq_other side'
    · rw [how, get?_insert] at hr
      split_ifs at hr with hid
      · cases hr
        subst hid
        refine ⟨by rw [hre]; exact hst, by rw [hre]; exact ha.time_eq,
          by rw [hre]; exact ha.nonneg, by rw [hre]; exact ha.closes, ?_, hm⟩
        conv_lhs => rw [hre]
        rw [hre]
        rfl
      · exact h.held _ id r hr
    · rw [ho] at hr
      exact h.held _ id r hr
  · obtain rfl | rfl := side.eq_or_eq_other side'
    · rw [how, get?_insert] at hr
      split_ifs at hr with hid
      · subst hid
        exact ⟨by omega, by simp [insert]⟩
      · exact ⟨(h.numbered _ id r hr).1, (h.numbered _ id r hr).2.trans (hse _)⟩
    · rw [ho] at hr
      exact ⟨(h.numbered _ id r hr).1, (h.numbered _ id r hr).2.trans (hse _)⟩
  · obtain rfl | rfl := side.eq_or_eq_other side'
    · rw [how, hsi]
      exact ha.room
    · rw [ho]
      exact h.room _
  · rw [retained_eq side, how, ho, hsi]
    have := ha.durable hd
    rw [retained_eq side] at this
    have hma : (j.insert side pending).maxKeys = j.maxKeys := rfl
    omega
  · obtain rfl | hs := eq_or_ne side' side
    · have : (j.insert side' pending).sequence side' = j.sequence side' + 1 := by simp [insert, hor]
      rw [this]
      exact ha.ordinal
    · have : (j.insert side pending).sequence side' = j.sequence side' := by
        simp [BoundedJoin.insert, setRows, hs]
      rw [this]
      exact h.sequence side'

/-- **A row arrives.** -/
theorem Kept.push {sent : List JoinEvent} (h : j.Kept)
    (ha : j.Admits side row time expires) (hst : j.Storable side row)
    (hpu : Pushed j side (j.pendingOf side row time expires) sent j') : j'.Kept := by
  obtain ⟨j₁, pending, ⟨-, ⟨rows, rfl, hr⟩, hp⟩, rfl⟩ := hpu
  have hmar : (j.setRows side.other rows).Kept := h.mark (by simpa using hr)
  have ho : (j.setRows side.other rows).rows side = j.rows side := setRows_rows_other side rows
  have hs : rows.size = (j.rows side.other).size := by
    simp [size, entries_of_get?_map hr]
  have ha' : (j.setRows side.other rows).Admits side row time expires :=
    { width := ha.width, time_eq := ha.time_eq, nonneg := ha.nonneg, current := ha.current
      room := by rw [ho]; exact ha.room
      durable := fun hd => by
        rw [retained_eq side, ho, setRows_rows, hs, ← retained_eq]
        exact ha.durable hd
      ordinal := ha.ordinal, closes := ha.closes, keys := ha.keys }
  refine hmar.insert ha' hst ?_ ?_ ?_
  · rw [hp]
    split_ifs <;> rfl
  · -- the row is marked when it has a partner, so it can match
    rw [hp]
    split_ifs with hn
    · exact fun hm => absurd hm Bool.false_ne_true
    · intro _
      obtain ⟨e, he⟩ := List.exists_mem_of_ne_nil _ hn
      have hma := (mem_after.mp he).2.2
      simp only [JoinConfig.matchRecords, Bool.and_eq_true] at hma
      exact hma.1.1.1
  · rw [hp]
    split_ifs <;> rfl

/-! ### A row is closed -/

variable {r : JoinRecord}

theorem Counted.without {id : ℕ} (h : j.Counted) (hr : (j.rows side).get? id = some r) :
    (j.without side id r).Counted := by
  intro key
  have ho : (j.without side id r).rows side.other = j.rows side.other := by simp [BoundedJoin.without, setRows]
  have how : (j.without side id r).rows side = (j.rows side).erase id := by simp [BoundedJoin.without]
  have hc : (j.without side id r).keyCount key + (if r.key = key then 1 else 0) = j.keyCount key := by
    have hsu := sum_erase hr fun e => if e.2.key = key then 1 else 0
    dsimp only at hsu
    rw [keyCount_eq side, keyCount_eq side, how, ho, countOn, countOn, countOn]
    omega
  have hkey : (j.without side id r).keys = j.keysWithout r := rfl
  have hk := h r.key
  rw [hkey]
  obtain rfl | hke := eq_or_ne r.key key
  · rw [if_pos rfl] at hc
    unfold keysWithout
    have hg : (j.keys.modify r.key (· - 1)).get? r.key = some ((j.without side id r).keyCount r.key) := by
      rw [get?_modify, if_pos rfl, hk, ← hc]
      rfl
    dsimp only
    rw [hg]
    split_ifs with h₁ h₂ h₂
    · rw [get?_erase, if_pos rfl]
    · exact absurd (Option.some.inj h₁) h₂
    · exact absurd (congrArg some h₂) h₁
    · exact hg
  · rw [if_neg hke, Nat.add_zero] at hc
    have hs : (j.keysWithout r).get? key = j.keys.get? key := by
      have hm : (j.keys.modify r.key (· - 1)).get? key = j.keys.get? key := by
        rw [get?_modify, if_neg (Ne.symm hke)]
      unfold keysWithout
      dsimp only
      split_ifs
      · rw [get?_erase, if_neg (Ne.symm hke), hm]
      · exact hm
    rw [hs, hc, h]

/-- **A row is closed.** -/
theorem Kept.close {id : ℕ} (h : j.Kept) (hr : (j.rows side).get? id = some r) : (j.without side id r).Kept := by
  have hg : ∀ side' id' r', ((j.without side id r).rows side').get? id' = some r' →
      (j.rows side').get? id' = some r' := by
    intro side' id' r' hr'
    obtain rfl | rfl := side.eq_or_eq_other side'
    · have hr' : ((j.rows side').erase id).get? id' = some r' := by simpa [without] using hr'
      exact (get?_erase_eq_some.mp hr').2
    · simpa [without, setRows] using hr'
  refine ⟨fun side' id' r' hr' => h.held side' id' r' (hg side' id' r' hr'),
    fun side' id' r' hr' => h.numbered side' id' r' (hg side' id' r' hr'), fun side' => ?_, fun hd => ?_, h.sequence,
    h.keys.without hr⟩
  · obtain rfl | rfl := side.eq_or_eq_other side'
    · have hs : ((j.without side' id r).rows side').size ≤ (j.rows side').size := by
        simpa [without] using size_erase_le (j.rows side') id
      exact hs.trans (h.room _)
    · have ho : (j.without side id r).rows side.other = j.rows side.other := by simp [without, setRows]
      rw [ho]
      exact h.room _
  · have hon := without_retained hr
    have ht := h.total hd
    have hm : (j.without side id r).maxKeys = j.maxKeys := rfl
    omega

/-! ### A watermark -/

theorem Kept.advance (h : j.Kept) (ha : j.advance side time = .ok j') : j'.Kept := by
  unfold BoundedJoin.advance at ha
  split_ifs at ha
  cases ha
  exact ⟨h.held, h.numbered, h.room, h.total, h.sequence, h.keys⟩

end BoundedJoin

/-! ### The executor's state -/

def Progress.Sound (p : Progress) : Prop := p.validate = .ok () ∧ ∀ wm, p.watermark = some wm → wm ≤ i64Max

theorem Progress.Sound.inputWatermark {p : Progress} (h : p.Sound) {wm : ℤ} (hwm : inputWatermark p = some wm) :
    0 ≤ wm ∧ wm ≤ i64Max := by
  unfold BoundedJoin.inputWatermark at hwm
  split_ifs at hwm
  · rw [← Option.some.inj hwm]
    decide
  · have hv := refuseIf_eq_ok.mp h.1
    simp only [hwm, Option.any_some, Bool.or_eq_true, decide_eq_true_eq, not_or] at hv
    exact ⟨not_lt.mp hv.1, h.2 wm hwm⟩

def Item.Durable (c : JoinConfig) (side : Side) : Item → Prop
  | .data rows => ∀ row ∈ rows, c.Storable side row
  | .progress p => p.Sound

variable {next : Progress}

theorem inputWatermark_le {old : Progress} (hold : old.Sound) (he : old.eof = true → next.eof = true)
    (hb : movesBack old next = false) : match inputWatermark next with
    | none => inputWatermark old = none
    | some wm => ∀ o, inputWatermark old = some o → o ≤ wm := by
  unfold inputWatermark movesBack at *
  cases hn : next.eof with
  | true =>
    intro o ho
    split_ifs at ho
    · exact (Option.some.inj ho).ge
    · exact hold.2 o ho
  | false =>
    have ha : old.eof = false := by
      cases h : old.eof
      · rfl
      · exact absurd (he h) (by simp [hn])
    cases how : old.watermark <;> cases hnw : next.watermark <;> simp_all

namespace JoinState

variable {c : JoinConfig} {s : JoinState} {side : Side} {log : List JoinEvent}

/-- What holds at every point of a round. -/
structure Running (c : JoinConfig) (s : JoinState) : Prop where
  config : s.op.toJoinConfig = c
  kept : s.op.Kept
  sound : ∀ side, (s.states side).Sound
  watermarks : ∀ side, s.op.watermarks side = inputWatermark (s.states side)

/-- **The invariant between items.** -/
structure Settled (c : JoinConfig) (s : JoinState) : Prop extends Running c s where
  drained : s.op.expired = none
  emitted_eq : s.emitted = { watermark := s.op.progress, idle := s.eof, eof := s.eof }

theorem Running.drain {credits : Credits} (h : s.Running c) :
    Ensures log (s.drain credits) (fun _ => True) fun _ s => s.Settled c := by
  refine Ensures.bind
    (Q := fun _ op => Running c { s with op } ∧ op.expired = none)
      ⟨trivial, fun op hop => ⟨?_, ?_⟩⟩ fun log' op h' => ?_
  · have hk : Ensures log (closeExpired credits.close s.op.retained s.op) (fun _ => True)
        fun _ op => Running c { s with op } :=
      closeExpired_ensures (fun _ _ _ => trivial)
        (fun _ _ _ _ _ _ h _ hr _ => ⟨h.config, h.kept.close hr, h.sound, h.watermarks⟩) h
    exact hk.2 op hop
  · exact closeExpired_expired le_rfl hop
  · obtain ⟨hru, hd⟩ := h'
    have hs : Settled c { s with op, emitted := { watermark := op.progress, idle := s.eof, eof := s.eof } } :=
      { config := hru.config, kept := hru.kept, sound := hru.sound, watermarks := hru.watermarks
        drained := hd, emitted_eq := rfl }
    dsimp only
    split_ifs with _ hn
    · exact .emit_bind (.error trivial)
    · exact .emit_bind (.pure trivial hs)
    · rw [not_not] at hn
      rw [hn] at hs
      exact .pure trivial hs

variable {credits : ℕ → Credits}

theorem Settled.dataRow {row : Row × ℕ} (h : s.Settled c) (hro : c.Storable side row.1) :
    Ensures log (s.dataRow side credits row) (fun _ => True) fun _ s => s.Settled c := by
  refine Ensures.bind (Q := fun _ r => ∀ op, r = some op → Running c { s with op })
    ⟨trivial, fun r hr op hop => ?_⟩ fun log' r h' => ?_
  · obtain ⟨rfl, -⟩ | ⟨-, time, expires, sent, j', ha, -, hp, rfl, -⟩ := pushRow_ok hr
    · cases hop
    · cases hop
      have hk := h.kept.push ha (h.config ▸ hro) hp
      obtain ⟨_, _, ⟨-, ⟨rows, rfl, -⟩, -⟩, rfl⟩ := hp
      exact ⟨h.config, hk, h.sound, h.watermarks⟩
  · cases r with
    | none => exact .pure trivial h
    | some op => exact (h' op rfl).drain

variable {op : BoundedJoin}

theorem Settled.advance (h : s.Settled c) (hn : next.Sound)
    (hf : ((s.states side).eof = true → next.eof = true) ∧ movesBack (s.states side) next = false)
    (hop : s.op.advanceTo side next = .ok op) :
    Running c { s with op, states := Function.update s.states side next } := by
  have hso : ∀ side', (Function.update s.states side next side').Sound := fun side' => by
    obtain rfl | hs := eq_or_ne side' side
    · simpa using hn
    · simpa [hs] using h.sound side'
  have hold := h.watermarks side
  have hle := inputWatermark_le (h.sound side) hf.1 hf.2
  unfold advanceTo at hop
  cases hwm : inputWatermark next with
  | none =>
    rw [hwm] at hop hle
    cases hop
    refine ⟨h.config, h.kept, hso, fun side' => ?_⟩
    obtain rfl | hs := eq_or_ne side' side
    · simp only [Function.update_self, hwm, hold]
      exact hle
    · simpa [hs] using h.watermarks side'
  | some wm =>
    rw [hwm] at hop hle
    have hk := h.kept.advance hop
    dsimp only [BoundedJoin.advance] at hop
    split_ifs at hop
    cases hop
    refine ⟨h.config, hk, hso, fun side' => ?_⟩
    obtain rfl | hs := eq_or_ne side' side
    · simp only [Function.update_self, hwm, hold]
      cases ho : inputWatermark (s.states side') with
      | none => rfl
      | some o => simp [hle o ho]
    · simpa [hs] using h.watermarks side'

theorem Settled.item {i : Item} (hi : i.Durable c side) (h : s.Settled c) :
    Ensures log (s.item side credits i) (fun _ => True) fun _ s => s.Settled c := by
  cases i with
  | progress next =>
    refine .lift_bind trivial fun _ hf => .lift_bind trivial fun op hop => Running.drain ?_
    exact h.advance hi (by simpa using refuseIf_eq_ok.mp hf) hop
  | data rows =>
    refine .lift_bind trivial fun _ _ => ?_
    refine (Ensures.foldM (G := fun row : Row × ℕ => c.Storable side row.1) (I := fun _ s => Settled c s)
      (fun _ _ _ => trivial) (fun _ _ _ hr h => h.dataRow hr)
      (fun row hr => hi row.1 (List.fst_mem_of_mem_zipIdx hr)) h).bind fun _ _ h' => h'.toRunning.drain

theorem Settled.fresh {spec : StreamJoinSpec} {left right : Schema} {budgetKeys maxKeys : ℕ}
    (hn : BoundedJoin.new spec left right budgetKeys maxKeys = .ok op) :
    Settled op.setDurable.toJoinConfig (.fresh op.setDurable) := by
  obtain ⟨output, -, hn⟩ := bind_eq_ok.mp hn
  cases hn
  exact ⟨⟨rfl, .init (fun _ => rfl) rfl fun _ => rfl, fun _ => ⟨rfl, fun _ h => nomatch h⟩, fun _ => rfl⟩, rfl, rfl⟩

end JoinState

/-- A delivery of a durable input: its rows can be stored, and watermarks are `i64` values. -/
def Delivery.Durable (c : JoinConfig) (d : Delivery) : Prop :=
  ∀ env, d.envelope = some env →
    (∀ batch, env.batch = some batch → ∀ row ∈ batch.rows, c.Storable d.side row) ∧
      ∀ wm flags, env.control = some (.graphProgress wm flags) → wm ≤ i64Max

theorem Delivery.Durable.brings {c : JoinConfig} {d : Delivery} (h : d.Durable c) : d.Brings (Item.Durable c) := by
  intro env he
  refine ⟨(h env he).1, fun wm flags p hc hp => ?_⟩
  have hwm := (h env he).2 wm flags hc
  replace hp := after_check hp
  obtain ⟨_, hv, hp⟩ := bind_eq_ok.mp hp
  cases hp
  refine ⟨hv, fun wm' hw' => ?_⟩
  split_ifs at hw'
  exact Option.some.inj hw' ▸ hwm

/-- **Along a run** the state between items is settled, and between rounds there is nothing else. -/
theorem JoinTask.run_settled {spec : StreamJoinSpec} {left right : Schema} {budgetKeys maxKeys sequence : ℕ}
    {op : BoundedJoin} {micros : ℤ} {t t' : JoinTask} {ctx : JobCtx} {deliveries : List Delivery}
    (hn : BoundedJoin.new spec left right budgetKeys maxKeys = .ok op)
    (hst : JoinTask.start (.fresh op.setDurable) sequence micros = .ok t)
    (hdu : ∀ d ∈ deliveries, d.Durable op.toJoinConfig) (hr : (t.run ctx deliveries).result = .ok t') :
    t'.toJoinState.Settled op.setDurable.toJoinConfig ∧ t'.Collected (Item.Durable op.setDurable.toJoinConfig) := by
  obtain ⟨hc, hsta⟩ := JoinTask.Collected.start (G := Item.Durable op.setDurable.toJoinConfig) hst
  have hs := JoinState.Settled.fresh hn
  rw [← hsta] at hs
  have hr' : Ensures [] (t.run ctx deliveries) (fun _ => True) fun _ t =>
      t.toJoinState.Settled op.setDurable.toJoinConfig ∧ t.Collected (Item.Durable op.setDurable.toJoinConfig) :=
    JoinTask.run_ensures (I := fun _ s => s.Settled op.setDurable.toJoinConfig)
      (fun _ _ _ => trivial) (fun _ _ _ _ h => h) (fun _ _ _ _ _ hi h => h.item hi)
      (fun d hd => Delivery.Durable.brings (hdu d hd)) hs hc
  exact hr'.2 t' hr

end Sparrow.Runtime
