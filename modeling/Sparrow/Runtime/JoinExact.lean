import Sparrow.Library.NestedLoop
import Sparrow.Runtime.JoinKeys

/-!
# A bounded join computes the join

The operator sees the rows of two streams interleaved with their watermarks and forgets a
row as soon as the other side's watermark has passed its close time. Still it sends
exactly the rows of the nested-loop join of everything it accepted.

## The argument

A row that is forgotten has a close time that its other side's watermark has reached. A
row that arrives is not older than its own side's watermark, so it cannot be a partner of
anything forgotten: its partners among the retained rows are its partners among all
accepted rows. So every pair is sent when its later row arrives, and the mark of a
retained row says whether it has had a partner so far (`Exact`).
-/

namespace Sparrow.Runtime

open Library Model Plan NestedLoop SortedMap List Option BoundedJoin

/-! ### The discipline -/

/-- What happens to the operator: a row or a watermark of one side. -/
inductive JoinInput where
  | row (side : Side) (row : Row) (credits : Credits)
  | watermark (side : Side) (time : ℤ) (credits : Credits)

namespace BoundedJoin

/-- A row is matched and retained, a watermark advances its side; then what has expired is closed. -/
def joinStep (j : BoundedJoin) : JoinInput → JoinTaskM BoundedJoin
  | .row side row credits => do
    match ← j.pushRow side row credits with
    | none => return j
    | some j => closeExpired credits.close j.retained j
  | .watermark side time credits => do
    let j ← .lift (j.advance side time)
    closeExpired credits.close j.retained j

/-- A run under the discipline of the executor. -/
def joinRun (j : BoundedJoin) (inputs : List JoinInput) : JoinTaskM BoundedJoin := Emits.foldM joinStep j inputs

end BoundedJoin

def rowsOf (log : List JoinEvent) : List Row :=
  log.flatMap fun
    | .row b => b.rows
    | _ => []

def acceptedOf (side : Side) (log : List JoinEvent) : List JoinRecord :=
  log.filterMap fun
    | .accepted s r => if s = side then some r else none
    | _ => none

variable (c : JoinConfig)

def JoinConfig.timeOf (side : Side) (row : Row) : Option ℤ :=
  asEventTimeMicros (row.values.getD (c.timeIndices side) .null)

/-- The rows of a side that come in, with their times and without those too far in the future. -/
def arrivals (side : Side) (inputs : List JoinInput) : List (Row × Option ℤ) :=
  inputs.filterMap fun
    | .row s row credits =>
      if s = side ∧ isFuture c s row credits.now = false then some (row, c.timeOf s row) else none
    | .watermark .. => none

def acceptedRows (side : Side) (log : List JoinEvent) : List (Row × Option ℤ) :=
  (acceptedOf side log).map fun a => (a.row, some a.time)

/-- The rows of the input fit their schemas, as those of a batch do. -/
def JoinInput.Typed : JoinInput → Prop
  | .row side r _ => checkRow (c.schemas side) r = .ok ()
  | .watermark .. => True

@[simp] theorem rowsOf_append (log log' : List JoinEvent) : rowsOf (log ++ log') = rowsOf log ++ rowsOf log' :=
  flatMap_append

@[simp] theorem acceptedOf_append (side : Side) (log log' : List JoinEvent) :
    acceptedOf side (log ++ log') = acceptedOf side log ++ acceptedOf side log' := filterMap_append

/-! ### What is forgotten has no later partner -/

theorem matchRecords_symm (side : Side) (a b : JoinRecord) :
    c.matchRecords side.other b a = c.matchRecords side a b := by
  simp only [JoinConfig.matchRecords, Side.orient_other, Bool.and_comm b.matchable, Bool.beq_comm (a := b.key)]

theorem matchRecords_matched (side : Side) (a b : JoinRecord) (m : Bool) :
    c.matchRecords side a { b with matched := m } = c.matchRecords side a b := by
  cases side <;> rfl

theorem ediv_ne_of_le {a b size : ℤ} (hs : 0 < size) (h : a / size * size + size ≤ b) : a / size ≠ b / size := by
  have hm : (a / size + 1) * size ≤ b := by rwa [add_mul, one_mul]
  have hlt : a / size + 1 ≤ b / size := Int.le_ediv_of_mul_le hs hm
  omega

variable {a b r : JoinRecord} {sent : List JoinEvent} {c : JoinConfig}

/-- **A row has no partner from its close time on.** -/
theorem not_matchRecords_of_closed {side : Side} (hbounds : c.spec.boundsOk = true)
    (ha : a.Formed c side) (hle : a.expires ≤ b.time) : c.matchRecords side a b = false := by
  have hc := ha.closes
  unfold JoinConfig.closeTime at hc
  have ht : c.timesMatch (side.orient a b).1.time (side.orient a b).2.time = false := by
    unfold JoinConfig.timesMatch
    cases hs : c.spec.windowSizeMicros with
    | some size =>
      have hp : 0 < (size : ℤ) := by
        simp only [StreamJoinSpec.boundsOk, hs] at hbounds
        split at hbounds
        · rename_i heq _ _
          exact some.inj heq ▸ of_decide_eq_true hbounds
        · cases ‹some size = none›
        · cases hbounds
      simp only [hs] at hc
      split_ifs at hc
      have he := ediv_ne_of_le hp (some.inj hc ▸ hle)
      cases side with
      | left => exact decide_eq_false he
      | right => exact decide_eq_false he.symm
    | none =>
      simp only [hs] at hc
      split_ifs at hc
      have he := some.inj hc ▸ hle
      cases side with
      | left =>
        refine decide_eq_false fun h => ?_
        simp only [Side.orient] at h he
        omega
      | right =>
        refine decide_eq_false fun h => ?_
        simp only [Side.orient] at h he
        omega
  simp [JoinConfig.matchRecords, ht]

/-! ### The invariant -/

def JoinConfig.pairRow (c : JoinConfig) (l r : JoinRecord) : Row := c.outputRow l (some r)

namespace BoundedJoin

variable {c : JoinConfig} {log : List JoinEvent} {j j' : BoundedJoin} {side : Side}

/-- The left rows that have been forgotten without ever having had a partner. -/
def forgotten (j : BoundedJoin) (ls rs : List JoinRecord) : List JoinRecord :=
  ls.filter fun l => ((j.rows .left).get? l.ordinal).isNone && !rs.any (j.matchRecords .left l)

def owed (j : BoundedJoin) (ls rs : List JoinRecord) : List Row :=
  pairs (j.matchRecords .left) j.pairRow ls rs ++
    if j.spec.mode = .left then (j.forgotten ls rs).map fun l => j.outputRow l none else []

/-- The retained form of an accepted row: its mark says whether it has had a partner. -/
def retainedForm (j : BoundedJoin) (side : Side) (others : List JoinRecord) (a : JoinRecord) : JoinRecord :=
  { a with matched := others.any (j.matchRecords side a) }

/-- **The invariant.** -/
structure Exact (c : JoinConfig) (log : List JoinEvent) (j : BoundedJoin) : Prop where
  config : j.toJoinConfig = c
  ordinals : ∀ side, (acceptedOf side log).map (·.ordinal) = List.range' 1 (j.sequence side)
  formed : ∀ side, ∀ a ∈ acceptedOf side log, a.Formed j.toJoinConfig side
  typed : ∀ side, ∀ a ∈ acceptedOf side log, checkRow (j.schemas side) a.row = .ok ()
  retained : ∀ side id r, (j.rows side).get? id = some r →
    ∃ a ∈ acceptedOf side log, a.ordinal = id ∧ r = j.retainedForm side (acceptedOf side.other log) a
  dropped : ∀ side, ∀ a ∈ acceptedOf side log, (j.rows side).get? a.ordinal = none →
    ∃ wm, j.watermarks side.other = some wm ∧ a.expires ≤ wm
  found : ∀ l ∈ acceptedOf .left log, ∀ r ∈ acceptedOf .right log, j.matchRecords .left l r = true → j.joins l r = true
  sent : (rowsOf log).Perm (j.owed (acceptedOf .left log) (acceptedOf .right log))

section

variable (h : Exact c log j) (ha : a ∈ acceptedOf side log)

include h ha

theorem Exact.eq_of_ordinal (hb : b ∈ acceptedOf side log) (heq : a.ordinal = b.ordinal) : a = b := by
  have hn : ((acceptedOf side log).map (·.ordinal)).Nodup := by
    rw [h.ordinals]
    exact nodup_range'
  exact inj_on_of_nodup_map hn ha hb heq

theorem Exact.ordinal_mem : 1 ≤ a.ordinal ∧ a.ordinal ≤ j.sequence side := by
  have hm : a.ordinal ∈ List.range' 1 (j.sequence side) := h.ordinals side ▸ mem_map_of_mem ha
  rw [mem_range'_1] at hm
  omega

theorem Exact.get?_eq (hr : (j.rows side).get? a.ordinal = some r) :
    r = j.retainedForm side (acceptedOf side.other log) a := by
  obtain ⟨a', ha', heq, hr'⟩ := h.retained side _ _ hr
  exact h.eq_of_ordinal ha' ha heq ▸ hr'

end

/-! ### A row arrives -/

variable {x : JoinRecord}

/-- **The partners among the retained rows are the partners among the accepted rows.** -/
theorem Exact.later_perm (h : Exact c log j) (hbounds : c.spec.boundsOk = true)
    (hcurrent : ∀ {wm}, j.watermarks side = some wm → wm ≤ x.time) :
    (j.later side x 0).Perm (((acceptedOf side.other log).filter (j.matchRecords side x)).map fun b =>
      (b.ordinal, j.retainedForm side.other (acceptedOf side log) b)) := by
  have hn : (j.later side x 0).Nodup :=
    ((j.rows side.other).sorted.imp fun hab heq => absurd (heq ▸ hab) (lt_irrefl _)).filter _
  have hn' : (((acceptedOf side.other log).filter (j.matchRecords side x)).map fun b =>
      (b.ordinal, j.retainedForm side.other (acceptedOf side log) b)).Nodup := by
    have hal : ((acceptedOf side.other log).map (·.ordinal)).Nodup := by
      rw [h.ordinals]
      exact nodup_range'
    refine Nodup.of_map Prod.fst ?_
    rw [List.map_map]
    exact hal.sublist (List.filter_sublist.map _)
  refine (perm_ext_iff_of_nodup hn hn').mpr fun e => ?_
  rw [later, mem_after, List.mem_map]
  constructor
  · rintro ⟨hr, -, hm⟩
    obtain ⟨b, hb, hid, heq⟩ := h.retained side.other e.1 e.2 hr
    rw [Side.other_other] at heq
    refine ⟨b, List.mem_filter.mpr ⟨hb, ?_⟩, by rw [hid, ← heq]⟩
    rwa [heq, retainedForm, matchRecords_matched] at hm
  · rintro ⟨b, hb, rfl⟩
    obtain ⟨hb, hm⟩ := List.mem_filter.mp hb
    cases hr : (j.rows side.other).get? b.ordinal with
    | none =>
      -- a forgotten row is over, and the new one is not older than its own watermark
      obtain ⟨wm, hwm, hle⟩ := h.dropped side.other b hb hr
      rw [Side.other_other] at hwm
      have hno := not_matchRecords_of_closed (h.config ▸ hbounds) (h.formed side.other b hb) (hle.trans (hcurrent hwm))
      rw [matchRecords_symm, hm] at hno
      cases hno
    | some r =>
      have heq := h.get?_eq hb hr
      rw [Side.other_other] at heq
      refine ⟨by rw [heq], (h.ordinal_mem hb).1, ?_⟩
      rw [retainedForm, matchRecords_matched]
      exact hm

theorem acceptedOf_push (side' : Side) (x : JoinRecord) (l : List (ℕ × JoinRecord)) :
    acceptedOf side' (.accepted side x :: l.map fun e => pairEvent c side x e.2) =
      if side = side' then [x] else [] := by
  have hp : acceptedOf side' (l.map fun e => pairEvent c side x e.2) = [] := by
    simp [acceptedOf, filterMap_map, pairEvent, rowEvent]
  rw [acceptedOf, filterMap_cons, ← acceptedOf, hp]
  split_ifs with hs <;> simp [hs]

theorem rowsOf_push (x : JoinRecord) (l : List (ℕ × JoinRecord)) :
    rowsOf (.accepted side x :: l.map fun e => pairEvent c side x e.2) =
      l.map fun e => c.pairRow (side.orient x e.2).1 (side.orient x e.2).2 := by
  have hp : rowsOf (l.map fun e => pairEvent c side x e.2) =
      l.map fun e => c.pairRow (side.orient x e.2).1 (side.orient x e.2).2 := by
    induction l with
    | nil => rfl
    | cons e l ih =>
      rw [map_cons, map_cons, ← ih]
      rfl
  rw [← hp]
  rfl

/-- What the operator is after a row has arrived. -/
structure Arrived (j : BoundedJoin) (side : Side) (others : List JoinRecord) (x : JoinRecord) (j' : BoundedJoin) :
    Prop where
  config : j'.toJoinConfig = j.toJoinConfig
  sequence : j'.sequence = Function.update j.sequence side x.ordinal
  watermarks : j'.watermarks = j.watermarks
  own : j'.rows side = (j.rows side).insert x.ordinal (j.retainedForm side others x)
  others : ∀ id, (j'.rows side.other).get? id = ((j.rows side.other).get? id).map (j.marked side x 0 id)

theorem Exact.arrived (h : Exact c log j) (hbounds : c.spec.boundsOk = true) {pending : Pending}
    (hcurrent : ∀ {wm}, j.watermarks side = some wm → wm ≤ pending.record.time)
    (hf : pending.record.matched = false) (hpu : Pushed j side pending sent j') :
    j.Arrived side (acceptedOf side.other log) pending.record j' := by
  obtain ⟨j₁, pending₁, ⟨-, ⟨rows, rfl, hro⟩, hpe⟩, rfl⟩ := hpu
  have hr : pending₁.record = j.retainedForm side (acceptedOf side.other log) pending.record := by
    have hp := h.later_perm hbounds hcurrent
    rw [hpe, retainedForm]
    split_ifs with hni
    · -- no retained partner, so no accepted one
      have hn : (acceptedOf side.other log).filter (j.matchRecords side pending.record) = [] := by
        simpa [hni] using hp
      have han : (acceptedOf side.other log).any (j.matchRecords side pending.record) = false := by
        simpa [filter_eq_nil_iff] using hn
      rw [han, ← hf]
    · have han : (acceptedOf side.other log).any (j.matchRecords side pending.record) = true := by
        by_contra hno
        refine hni (Perm.eq_nil ?_)
        have hn : (acceptedOf side.other log).filter (j.matchRecords side pending.record) = [] := by
          simpa [filter_eq_nil_iff] using hno
        simpa [hn] using hp
      rw [han]
      rfl
  have ho : pending₁.record.ordinal = pending.record.ordinal := by rw [hr]; rfl
  refine ⟨rfl, ?_, rfl, ?_, fun id => ?_⟩
  · rw [← ho]
    rfl
  · rw [← hr, ← ho]
    simp [insert, setRows]
  · rw [← hro]
    simp [insert, setRows]

section Push

variable {x : JoinRecord} (h : Exact c log j) (hbounds : c.spec.boundsOk = true)
  (hcurrent : ∀ {wm}, j.watermarks side = some wm → wm ≤ x.time) (hx : x.ordinal = j.sequence side + 1)
  (harrived : j.Arrived side (acceptedOf side.other log) x j')

include h hbounds hcurrent in
theorem Exact.push_rows :
    ((j.later side x 0).map fun e => j.pairRow (side.orient x e.2).1 (side.orient x e.2).2).Perm
      (((acceptedOf side.other log).filter (j.matchRecords side x)).map fun b =>
        j.pairRow (side.orient x b).1 (side.orient x b).2) := by
  refine ((h.later_perm hbounds hcurrent).map _).trans (Perm.of_eq ?_)
  rw [List.map_map]
  refine map_congr_left fun b _ => ?_
  cases side <;> rfl

include h hx harrived in
theorem Exact.push_own (ha : a ∈ acceptedOf side log) :
    (j'.rows side).get? a.ordinal = (j.rows side).get? a.ordinal := by
  have hlt := (h.ordinal_mem ha).2
  rw [harrived.own, get?_insert_of_ne _ _ (by omega)]

include h hbounds hcurrent hx harrived in
theorem Exact.push_forgotten : j'.forgotten
    (acceptedOf .left log ++ if side = .left then [x] else [])
      (acceptedOf .right log ++ if side = .right then [x] else []) =
      j.forgotten (acceptedOf .left log) (acceptedOf .right log) := by
  unfold forgotten
  rw [harrived.config]
  cases side with
  | left =>
    have hn : ((j'.rows .left).get? x.ordinal).isNone = false := by simp [harrived.own]
    simp only [↓reduceIte, filter_append, reduceCtorEq, append_nil]
    rw [filter_cons_of_neg (by simp [hn]), filter_nil, append_nil]
    exact filter_congr fun l hl => by rw [h.push_own hx harrived hl]
  | right =>
    simp only [↓reduceIte, reduceCtorEq, append_nil]
    refine filter_congr fun l hl => ?_
    have hs : ((j'.rows .left).get? l.ordinal).isNone = ((j.rows .left).get? l.ordinal).isNone := by
      rw [show (j'.rows .left).get? l.ordinal = _ from harrived.others l.ordinal, isNone_map]
      rfl
    rw [hs]
    cases hg : (j.rows .left).get? l.ordinal with
    | some r => rfl
    | none =>
      -- the row is over before the new one
      obtain ⟨wm, hwm, hle⟩ := h.dropped .left l hl hg
      have hno := not_matchRecords_of_closed (h.config ▸ hbounds) (h.formed .left l hl) (hle.trans (hcurrent hwm))
      simp [hno]

include h hbounds hcurrent hx harrived in
theorem Exact.push_owed :
    (rowsOf log ++ (j.later side x 0).map fun e => j.pairRow (side.orient x e.2).1 (side.orient x e.2).2).Perm
      (j'.owed (acceptedOf .left log ++ if side = .left then [x] else [])
        (acceptedOf .right log ++ if side = .right then [x] else [])) := by
  have hp : (pairs (j.matchRecords .left) j.pairRow (acceptedOf .left log) (acceptedOf .right log) ++
      ((acceptedOf side.other log).filter (j.matchRecords side x)).map fun b =>
        j.pairRow (side.orient x b).1 (side.orient x b).2).Perm
      (pairs (j.matchRecords .left) j.pairRow (acceptedOf .left log ++ if side = .left then [x] else [])
        (acceptedOf .right log ++ if side = .right then [x] else [])) := by
    cases side with
    | left =>
      simp only [↓reduceIte, reduceCtorEq, append_nil, pairs_concat_left]
      exact .refl _
    | right =>
      simp only [↓reduceIte, reduceCtorEq, append_nil]
      refine List.Perm.trans (Perm.of_eq ?_) (pairs_concat_right _ _ _).symm
      congr 2
      exact filter_congr fun l _ => matchRecords_symm _ .left l x
  unfold owed
  rw [h.push_forgotten hbounds hcurrent hx harrived, harrived.config]
  refine (h.sent.append (h.push_rows hbounds hcurrent)).trans ?_
  unfold owed
  rw [append_assoc]
  refine (Perm.append_left _ perm_append_comm).trans ?_
  rw [← append_assoc]
  exact hp.append_right _

variable {time expires : ℤ} {row : Row}

include h hbounds in
theorem Exact.push_found (hk : c.ScalarKeys) (hma : c.spec.maxOutputBytesPerRow < 2 ^ 32) {pending : Pending}
    (hcurrent : ∀ {wm}, j.watermarks side = some wm → wm ≤ pending.record.time)
    (hf : pending.record.Formed j.toJoinConfig side)
    (ht : checkRow (j.schemas side) pending.record.row = .ok ()) (hfa : j.checkFanout side pending = .ok ())
    (hb : b ∈ acceptedOf side.other log) (hmat : j.matchRecords side pending.record b = true) :
    j.joins (side.orient pending.record b).1 (side.orient pending.record b).2 = true := by
  have hk : j.ScalarKeys := h.config ▸ hk
  have hma : j.spec.maxOutputBytesPerRow < 2 ^ 32 := by rw [h.config]; exact hma
  have hl : (b.ordinal, j.retainedForm side.other (acceptedOf side log) b) ∈ j.later side pending.record 0 :=
    (h.later_perm hbounds hcurrent).mem_iff.mpr (List.mem_map.mpr ⟨b, List.mem_filter.mpr ⟨hb, hmat⟩, rfl⟩)
  obtain ⟨hr, -, hm⟩ := mem_after.mp hl
  have hp : (b.ordinal, j.retainedForm side.other (acceptedOf side log) b) ∈ j.partners side pending.record :=
    List.mem_filter.mpr ⟨mem_entries_iff.mpr hr, hm⟩
  obtain ⟨how, ho⟩ := checkFanout_ok hfa (by unfold usizeMax; omega) _ hp
  have how := keyEncodable hk ht how hma
  have ho : KeyEncodable j.toJoinConfig side.other b.row := keyEncodable hk (h.typed _ b hb) ho hma
  have hf' := h.formed _ b hb
  cases side with
  | left => exact joins_of_matchRecords hf hf' how ho hmat
  | right =>
    refine joins_of_matchRecords hf' hf ho how ?_
    rw [← hmat]
    exact (matchRecords_symm _ .left b pending.record).symm

end Push

theorem retainedForm_concat (side : Side) (others : List JoinRecord) (x b : JoinRecord) {id : ℕ} (hid : 0 < id) :
    j.retainedForm side.other (others ++ [x]) b = j.marked side x 0 id (j.retainedForm side.other others b) := by
  have hma : j.matchRecords side x (j.retainedForm side.other others b) = j.matchRecords side.other b x := by
    rw [retainedForm, matchRecords_matched, matchRecords_symm]
  rw [marked, hma]
  cases hm : j.matchRecords side.other b x with
  | true => simp [retainedForm, mark, hm, hid]
  | false => simp [retainedForm, hm]

theorem Exact.arrive (h : Exact c log j) (harrived : j.Arrived side (acceptedOf side.other log) x j')
    (hor : x.ordinal = j.sequence side + 1) (hfor : x.Formed j.toJoinConfig side)
    (ht : checkRow (j.schemas side) x.row = .ok ())
    (hf : ∀ b ∈ acceptedOf side.other log, j.matchRecords side x b = true →
      j.joins (side.orient x b).1 (side.orient x b).2 = true)
    {log' : List JoinEvent} (how : acceptedOf side log' = acceptedOf side log ++ [x])
    (ho : acceptedOf side.other log' = acceptedOf side.other log)
    (hs : (rowsOf log').Perm (j'.owed (acceptedOf .left log') (acceptedOf .right log'))) : Exact c log' j' := by
  have hc := harrived.config
  refine ⟨hc.trans h.config, fun side' => ?_, fun side' a ha => ?_, fun side' a ha => ?_,
    fun side' id r hr => ?_, fun side' a ha hg => ?_, ?_, hs⟩
  · obtain rfl | rfl := side.eq_or_eq_other side'
    · rw [how, harrived.sequence, Function.update_self, hor, map_append, h.ordinals, range'_concat]
      simp [hor, Nat.add_comm]
    · rw [ho, harrived.sequence, Function.update_of_ne side.other_ne, h.ordinals]
  · rw [hc]
    obtain rfl | rfl := side.eq_or_eq_other side'
    · rw [how] at ha
      exact forall_mem_concat.mpr ⟨h.formed _, hfor⟩ a ha
    · exact h.formed _ a (ho ▸ ha)
  · rw [hc]
    obtain rfl | rfl := side.eq_or_eq_other side'
    · rw [how] at ha
      exact forall_mem_concat.mpr ⟨h.typed _, ht⟩ a ha
    · exact h.typed _ a (ho ▸ ha)
  · -- what is retained is as before, or the new row, or a marked partner
    have hfo : j'.retainedForm = j.retainedForm := by unfold retainedForm; rw [hc]
    rw [hfo]
    obtain rfl | rfl := side.eq_or_eq_other side'
    · rw [how, ho]
      rw [harrived.own, get?_insert] at hr
      split_ifs at hr with hid
      · exact ⟨x, by simp, hid.symm, (some.inj hr).symm⟩
      · obtain ⟨a, ha, hid, hr⟩ := h.retained _ id r hr
        exact ⟨a, mem_append_left _ ha, hid, hr⟩
    · rw [Side.other_other, how, ho]
      rw [harrived.others] at hr
      obtain ⟨r₀, hr₀, rfl⟩ := Option.map_eq_some_iff.mp hr
      obtain ⟨b, hb, hid, hr₀⟩ := h.retained _ id r₀ hr₀
      rw [Side.other_other] at hr₀
      refine ⟨b, hb, hid, ?_⟩
      rw [hr₀, retainedForm_concat side _ x b (hid ▸ (h.ordinal_mem hb).1)]
  · rw [harrived.watermarks]
    obtain rfl | rfl := side.eq_or_eq_other side'
    · rw [how] at ha
      rw [harrived.own, get?_insert] at hg
      split_ifs at hg with hid
      obtain ha | ha := List.mem_append.mp ha
      · exact h.dropped _ a ha hg
      · exact absurd (List.mem_singleton.mp ha ▸ rfl) hid
    · rw [harrived.others, map_eq_none_iff] at hg
      exact h.dropped _ a (ho ▸ ha) hg
  · rw [hc]
    cases side with
    | left =>
      rw [show acceptedOf .right log' = _ from ho, how]
      exact forall_mem_concat.mpr ⟨h.found, hf⟩
    | right =>
      rw [show acceptedOf .left log' = _ from ho, how]
      refine fun l hl => forall_mem_concat.mpr ⟨h.found l hl, fun hm => ?_⟩
      exact hf l hl (by rw [← hm]; exact matchRecords_symm _ .left l x)

variable {time expires : ℤ} {row : Row}

theorem Pushed.acceptedOf_eq
    (h : Pushed j side (j.pendingOf side row time expires) sent j') (side' : Side) :
    acceptedOf side' (.accepted side (j.recordOf side row time expires (j.sequence side + 1)) :: sent) =
      if side = side' then [j.recordOf side row time expires (j.sequence side + 1)] else [] := by
  obtain ⟨_, _, ⟨rfl, -, -⟩, -⟩ := h
  exact acceptedOf_push side' _ _

/-- **A row arrives.** -/
theorem Exact.push (h : Exact c log j) (hbounds : c.spec.boundsOk = true) (hk : c.ScalarKeys)
    (hm : c.spec.maxOutputBytesPerRow < 2 ^ 32)
    (hr : checkRow (j.schemas side) row = .ok ()) (had : j.Admits side row time expires)
    (hfa : j.checkFanout side (j.pendingOf side row time expires) = .ok ())
    (hp : Pushed j side (j.pendingOf side row time expires) sent j') :
    Exact c (log ++ (.accepted side (j.recordOf side row time expires (j.sequence side + 1)) :: sent)) j' := by
  have hf : (j.recordOf side row time expires (j.sequence side + 1)).Formed j.toJoinConfig side :=
    ⟨rfl, rfl, had.closes⟩
  have harrived := h.arrived hbounds had.current rfl hp
  have hac : ∀ side', acceptedOf side'
      (log ++ (.accepted side (j.recordOf side row time expires (j.sequence side + 1)) :: sent)) =
      acceptedOf side' log ++ if side = side' then [j.recordOf side row time expires (j.sequence side + 1)] else [] :=
    fun side' => by rw [acceptedOf_append, hp.acceptedOf_eq]
  refine h.arrive harrived rfl hf hr
    (fun b hb => h.push_found hbounds hk hm had.current hf hr hfa hb) ?_ ?_ ?_
  · rw [hac, if_pos rfl]
    rfl
  · rw [hac, if_neg side.ne_other, append_nil]
  · obtain ⟨_, _, ⟨rfl, -, -⟩, -⟩ := hp
    rw [hac, hac, rowsOf_append]
    exact (Perm.of_eq (congrArg (rowsOf log ++ ·) (rowsOf_push _ _))).trans
      (h.push_owed hbounds had.current rfl harrived)

/-! ### A row is closed -/

theorem Exact.close_forgotten (h : Exact c log j) (ha : a ∈ acceptedOf .left log)
    (hr : (j.rows .left).get? a.ordinal = some r) (rs : List JoinRecord) :
    ((j.without .left a.ordinal r).forgotten (acceptedOf .left log) rs).Perm
      (j.forgotten (acceptedOf .left log) rs ++ if rs.any (j.matchRecords .left a) then [] else [a]) := by
  have he : ∀ id, (((j.without .left a.ordinal r).rows .left).get? id).isNone =
      (((j.rows .left).get? id).isNone || id == a.ordinal) := fun id => by
    have hro : (j.without .left a.ordinal r).rows .left = (j.rows .left).erase a.ordinal := by simp [without]
    rw [hro, get?_erase]
    split_ifs with hid <;> simp [hid]
  have hla : (acceptedOf .left log).filter (fun l => !rs.any (j.matchRecords .left l) && l.ordinal == a.ordinal) =
      if rs.any (j.matchRecords .left a) then [] else [a] := by
    have ho : (acceptedOf .left log).filter (fun l => l.ordinal == a.ordinal) = [a] := by
      have hn : ((acceptedOf .left log).map (·.ordinal)).Nodup := by
        rw [h.ordinals]
        exact nodup_range'
      refine List.perm_singleton.mp ((perm_ext_iff_of_nodup (hn.of_map.filter _) (nodup_singleton a)).mpr
        fun l => ?_)
      rw [mem_filter, mem_singleton, beq_iff_eq]
      exact ⟨fun hl => h.eq_of_ordinal hl.1 ha hl.2, fun hl => by rw [hl]; exact ⟨ha, rfl⟩⟩
    rw [← List.filter_filter, ho, List.filter_singleton]
    cases rs.any (j.matchRecords .left a) <;> rfl
  rw [← hla]
  refine filter_split (fun l _ => ?_) fun l _ hg => ?_
  · rw [he]
    rw [Bool.and_or_distrib_right, Bool.and_comm (l.ordinal == a.ordinal)]
    rfl
  · have hid : (l.ordinal == a.ordinal) = false := by
      by_contra hid
      rw [Bool.not_eq_false, beq_iff_eq] at hid
      simp [hid, hr] at hg
    rw [hid, Bool.and_false]

/-- **A row is closed.** -/
theorem Exact.close (h : Exact c log j) {id : ℕ} {wm : ℤ} (hwm : j.watermarks side.other = some wm)
    (hr : (j.rows side).get? id = some r) (hle : r.expires ≤ wm) :
    Exact c (log ++ if j.alone side r then [rowEvent j.toJoinConfig r none] else []) (j.without side id r) := by
  obtain ⟨a, ha, rfl, hf⟩ := h.retained side id r hr
  have hac : ∀ side', acceptedOf side' (log ++ if j.alone side r then [rowEvent j.toJoinConfig r none] else []) =
      acceptedOf side' log := fun side' => by
    split_ifs <;> simp [acceptedOf, rowEvent]
  have hro : ∀ side' id', ((j.without side a.ordinal r).rows side').get? id' =
      if side' = side ∧ id' = a.ordinal then none else (j.rows side').get? id' := fun side' id' => by
    obtain rfl | hsi := eq_or_ne side' side
    · simp [without, get?_erase]
    · simp [without, setRows, hsi]
  refine ⟨h.config, fun side' => ?_, fun side' b hb => ?_, fun side' b hb => ?_, fun side' id' r' hr' => ?_,
    fun side' b hb hg => ?_, fun l hl r' hr' => ?_, ?_⟩
  · rw [hac]
    exact h.ordinals side'
  · exact h.formed side' b (hac side' ▸ hb)
  · exact h.typed side' b (hac side' ▸ hb)
  · rw [hac, hac]
    rw [hro] at hr'
    split_ifs at hr'
    exact h.retained side' id' r' hr'
  · rw [hac] at hb
    rw [hro] at hg
    split_ifs at hg with hid
    · obtain ⟨rfl, hid⟩ := hid
      obtain rfl := h.eq_of_ordinal hb ha hid
      exact ⟨wm, hwm, by rwa [hf] at hle⟩
    · exact h.dropped side' b hb hg
  · rw [hac] at hl hr'
    exact h.found l hl r' hr'
  · -- the pairs are as before; a left row without partner is sent and joins the forgotten ones
    rw [hac, hac, rowsOf_append]
    cases side with
    | right =>
      exact (append_nil (rowsOf log)).symm ▸ h.sent
    | left =>
      have hma : r.matched = (acceptedOf .right log).any (j.matchRecords .left a) := by rw [hf]; rfl
      have hrow : ∀ o : Option JoinRecord, j.outputRow r o = j.outputRow a o := fun o => by rw [hf]; rfl
      unfold owed
      by_cases hmo : j.spec.mode = .left
      · have hm' : (j.without .left a.ordinal r).spec.mode = .left := hmo
        rw [if_pos hm']
        have hg := (h.close_forgotten ha hr (acceptedOf .right log)).map fun l => j.outputRow l none
        refine List.Perm.trans ?_ (Perm.append_left _ hg.symm)
        have hla : rowsOf (if j.alone .left r then [rowEvent j.toJoinConfig r none] else []) =
            (if (acceptedOf .right log).any (j.matchRecords .left a) then [] else [a]).map fun l =>
              j.outputRow l none := by
          rw [← hma]
          cases hm : r.matched <;> simp [alone, hmo, hm, rowsOf, rowEvent, hrow]
        rw [hla, map_append, ← append_assoc]
        have hs := h.sent
        rw [owed, if_pos hmo] at hs
        exact hs.append_right _
      · have hm' : ¬ (j.without .left a.ordinal r).spec.mode = .left := hmo
        have hal : j.alone .left r = false := by simp [alone, hmo]
        have hs := h.sent
        rw [owed, if_neg hmo] at hs
        rw [if_neg hm', hal]
        exact (append_nil (rowsOf log)).symm ▸ hs

/-! ### A watermark -/

/-- **A watermark.** -/
theorem Exact.advance (h : Exact c log j) (had : j.advance side time = .ok j') : Exact c log j' := by
  unfold BoundedJoin.advance at had
  split_ifs at had
  cases had
  refine ⟨h.config, h.ordinals, h.formed, h.typed, h.retained, fun side' a ha hg => ?_, h.found, h.sent⟩
  obtain ⟨wm, hwm, hle⟩ := h.dropped side' a ha hg
  obtain rfl | hs := eq_or_ne side'.other side
  · exact ⟨_, Function.update_self .., by simpa [hwm] using .inl hle⟩
  · exact ⟨wm, by simpa [hs] using hwm, hle⟩

/-! ### Runs -/

theorem Exact.append (h : Exact c log j) (hac : ∀ side, acceptedOf side sent = []) (hr : rowsOf sent = []) :
    Exact c (log ++ sent) j := by
  have ha' : ∀ side, acceptedOf side (log ++ sent) = acceptedOf side log := fun side => by
    rw [acceptedOf_append, hac, append_nil]
  have hr' : rowsOf (log ++ sent) = rowsOf log := by rw [rowsOf_append, hr, append_nil]
  exact ⟨h.config, by simpa only [ha'] using h.ordinals, by simpa only [ha'] using h.formed,
    by simpa only [ha'] using h.typed, by simpa only [ha'] using h.retained, by simpa only [ha'] using h.dropped,
    by simpa only [ha'] using h.found, by simpa only [ha', hr'] using h.sent⟩

theorem Exact.closeExpired {grants : Side → ℕ → Grants} {n : ℕ} (h : Exact c log j)
    (hc : (closeExpired grants n j).result = .ok j') :
    Exact c (log ++ (closeExpired grants n j).sent) j' ∧
      ∀ side, acceptedOf side (BoundedJoin.closeExpired grants n j).sent = [] := by
  have hk : Emits.Ensures log (BoundedJoin.closeExpired grants n j) (fun _ => True)
      fun log' j' => Exact c log' j' ∧ ∀ side, acceptedOf side log' = acceptedOf side log := by
    refine closeExpired_ensures (fun _ _ _ => trivial) (fun log' j side id wm r h hwm hr hle => ?_) ⟨h, fun _ => rfl⟩
    refine ⟨h.1.close hwm hr hle, fun side' => ?_⟩
    rw [acceptedOf_append, ← h.2 side']
    split_ifs <;> simp [acceptedOf, rowEvent]
  obtain ⟨he, hac⟩ := hk.2 j' hc
  exact ⟨he, fun side => by simpa using hac side⟩

/-- **One input.** -/
theorem Exact.joinStep (h : Exact c log j) (hbounds : c.spec.boundsOk = true) (hk : c.ScalarKeys)
    (hm : c.spec.maxOutputBytesPerRow < 2 ^ 32) (hd : j.expired = none) {input : JoinInput}
    (hty : input.Typed c) (hs : (j.joinStep input).result = .ok j') :
    Exact c (log ++ (j.joinStep input).sent) j' ∧ j'.expired = none ∧
      ∀ side, acceptedRows side (j.joinStep input).sent = arrivals c side [input] := by
  cases input with
  | watermark side time credits =>
    dsimp only [BoundedJoin.joinStep] at hs ⊢
    obtain ⟨j₁, hadv, hc⟩ := Emits.bind_result_eq_ok.mp hs
    obtain ⟨he, hac⟩ := (h.advance hadv).closeExpired hc
    rw [Emits.bind_ok hadv]
    refine ⟨by simpa using he, closeExpired_expired le_rfl hc, fun side' => ?_⟩
    simp [acceptedRows, arrivals, hac]
  | row side row credits =>
    dsimp only [BoundedJoin.joinStep] at hs ⊢
    obtain ⟨o, hp, hc⟩ := Emits.bind_result_eq_ok.mp hs
    rw [Emits.bind_ok hp]
    obtain ⟨rfl, hf, hse⟩ | ⟨hf, time, expires, sent, j₁, had, hfa, hpu, rfl, hse⟩ :=
      pushRow_ok hp
    · obtain rfl : j = j' := Except.ok.inj hc
      rw [hse]
      rw [h.config] at hf
      refine ⟨h.append (fun _ => rfl) rfl, hd, fun side' => ?_⟩
      simp [acceptedRows, arrivals, acceptedOf, hf, pure]
    · have he := h.push hbounds hk hm (h.config ▸ hty) had hfa hpu
      obtain ⟨he', hac⟩ := he.closeExpired hc
      rw [hse]
      rw [h.config] at hf
      refine ⟨by simpa [append_assoc] using he', closeExpired_expired le_rfl hc, fun side' => ?_⟩
      have ht : c.timeOf side row = some time := h.config ▸ had.time_eq
      rw [acceptedRows, acceptedOf_append, hac, append_nil, hpu.acceptedOf_eq]
      obtain rfl | hsi := eq_or_ne side side'
      · simp [arrivals, hf, ht, JoinConfig.recordOf]
      · simp [arrivals, hsi]

/-- **A run.** -/
theorem Exact.joinRun (hbounds : c.spec.boundsOk = true) (hk : c.ScalarKeys)
    (hm : c.spec.maxOutputBytesPerRow < 2 ^ 32) {inputs : List JoinInput} (h : Exact c log j)
    (hd : j.expired = none) (ht : ∀ input ∈ inputs, input.Typed c)
    (hr : (j.joinRun inputs).result = .ok j') :
    Exact c (log ++ (j.joinRun inputs).sent) j' ∧ j'.expired = none ∧
      ∀ side, acceptedRows side (j.joinRun inputs).sent = arrivals c side inputs := by
  induction inputs generalizing log j with
  | nil =>
    obtain rfl : j = j' := Except.ok.inj hr
    refine ⟨?_, hd, fun _ => rfl⟩
    rwa [show (j.joinRun []).sent = [] from rfl, append_nil]
  | cons input inputs ih =>
    obtain ⟨hi, hin⟩ := List.forall_mem_cons.mp ht
    have hc : j.joinRun (input :: inputs) = j.joinStep input >>= fun j' => j'.joinRun inputs := rfl
    rw [hc] at hr ⊢
    obtain ⟨j₁, hs, hr⟩ := Emits.bind_result_eq_ok.mp hr
    rw [Emits.bind_ok hs]
    obtain ⟨he, hd, hac⟩ := h.joinStep hbounds hk hm hd hi hs
    obtain ⟨he', hd', ha'⟩ := ih he hd hin hr
    refine ⟨by rwa [← append_assoc], hd', fun side => ?_⟩
    have hap : acceptedRows side ((j.joinStep input).sent ++ (j₁.joinRun inputs).sent) =
        acceptedRows side (j.joinStep input).sent ++ acceptedRows side (j₁.joinRun inputs).sent := by
      simp only [acceptedRows, acceptedOf_append, map_append]
    rw [hap, hac, ha']
    exact (filterMap_append (l := [input])).symm

theorem Exact.init (hro : ∀ side, j.rows side = .empty) (hs : ∀ side, j.sequence side = 0) :
    Exact j.toJoinConfig [] j := by
  refine ⟨rfl, fun side => ?_, ?_, ?_, fun side id r hr => ?_, ?_, ?_, ?_⟩
  · rw [hs]
    rfl
  · simp [acceptedOf]
  · simp [acceptedOf]
  · rw [hro] at hr
    cases hr
  · simp [acceptedOf]
  · simp [acceptedOf]
  · simp [acceptedOf, rowsOf, owed, pairs, forgotten]

theorem new_ok {spec : StreamJoinSpec} {left right : Schema} {budgetKeys maxKeys : ℕ}
    (h : new spec left right budgetKeys maxKeys = .ok j) :
    j.spec.boundsOk = true ∧ j.spec.maxOutputBytesPerRow < 2 ^ 32 ∧ (∀ side, j.rows side = .empty) ∧
      ∀ side, j.sequence side = 0 := by
  obtain ⟨output, hp, h⟩ := bind_eq_ok.mp h
  cases h
  obtain ⟨hl, hbounds, -⟩ := joinOutput_ok hp
  refine ⟨hbounds, ?_, fun _ => rfl, fun _ => rfl⟩
  simp only [StreamJoinSpec.limitsOk, decide_eq_true_eq] at hl
  dsimp only
  omega

theorem Exact.ended (h : Exact c log j) (hd : j.expired = none)
    (he : ∀ side, j.watermarks side = some i64Max) (side : Side) (id : ℕ) : (j.rows side).get? id = none := by
  cases hr : (j.rows side).get? id with
  | none => rfl
  | some r =>
    obtain ⟨a, ha, -, rfl⟩ := h.retained side id r hr
    have hlt := expired_eq_none.mp hd side i64Max id _ (he side.other) hr
    have hc := (h.formed side a ha).closes
    dsimp only [JoinConfig.closeTime] at hc
    split_ifs at hc with hf
    obtain ⟨-, hle⟩ := of_decide_eq_true hf
    exact absurd hlt (not_lt.mpr (some.inj hc ▸ hle))

end BoundedJoin

def JoinConfig.joined (c : JoinConfig) (ls rs : List JoinRecord) : List Row :=
  pairs c.joins c.pairRow ls rs ++
    if c.spec.mode = .left then (unmatched c.joins ls rs).map fun l => c.outputRow l none else []

theorem BoundedJoin.Exact.rowsOf_perm {log : List JoinEvent} {j : BoundedJoin} (h : Exact c log j)
    (hd : j.expired = none) (he : ∀ side, j.watermarks side = some i64Max) :
    (rowsOf log).Perm (c.joined (acceptedOf .left log) (acceptedOf .right log)) := by
  obtain ⟨rfl⟩ : c = j.toJoinConfig := h.config.symm
  have hm : ∀ l ∈ acceptedOf .left log, ∀ r ∈ acceptedOf .right log, j.matchRecords .left l r = j.joins l r :=
    fun l hl r hr => Bool.eq_iff_iff.mpr
      ⟨h.found l hl r hr, matchRecords_of_joins (h.formed .left l hl) (h.formed .right r hr)⟩
  have hf : j.forgotten (acceptedOf .left log) (acceptedOf .right log) =
      unmatched (j.matchRecords .left) (acceptedOf .left log) (acceptedOf .right log) := by
    refine filter_congr fun l _ => ?_
    rw [h.ended hd he, isNone_none, Bool.true_and]
  have hs := h.sent
  rwa [owed, pairs_congr hm, hf, unmatched_congr hm] at hs

/-- **A bounded join sends the join of its inputs.** The rows that come in are accepted in order
and numbered from one; each pair of them that joins is sent once and no other pair is, and in a
left join each left row that joins nothing is sent once with nulls. Late rows are errors, so a
run without error has none. -/
theorem exact_join {spec : StreamJoinSpec} {left right : Schema} {budgetKeys maxKeys : ℕ} {j₀ j j' : BoundedJoin}
    {inputs : List JoinInput} (hnew : BoundedJoin.new spec left right budgetKeys maxKeys = .ok j₀)
    (hdurable : j = j₀ ∨ j = j₀.setDurable) (htyped : ∀ input ∈ inputs, input.Typed j.toJoinConfig)
    (hrun : (j.joinRun inputs).result = .ok j') (hend : ∀ side, j'.watermarks side = some i64Max) :
    (∀ side, acceptedRows side (j.joinRun inputs).sent = arrivals j.toJoinConfig side inputs) ∧
    (∀ side, (acceptedOf side (j.joinRun inputs).sent).map (·.ordinal) =
      List.range' 1 (arrivals j.toJoinConfig side inputs).length) ∧
    (rowsOf (j.joinRun inputs).sent).Perm
      (j.joined (acceptedOf .left (j.joinRun inputs).sent) (acceptedOf .right (j.joinRun inputs).sent)) := by
  have hk : j.ScalarKeys := by
    have hk := scalarKeys_new hnew
    obtain rfl | rfl := hdurable <;> exact hk
  obtain ⟨hbounds, hm, hro, hs⟩ : j.spec.boundsOk = true ∧ j.spec.maxOutputBytesPerRow < 2 ^ 32 ∧
      (∀ side, j.rows side = .empty) ∧ ∀ side, j.sequence side = 0 := by
    have hf := new_ok hnew
    obtain rfl | rfl := hdurable <;> exact hf
  have hd : j.expired = none := BoundedJoin.expired_eq_none.mpr fun side wm id r _ hr => by
    rw [hro] at hr
    cases hr
  obtain ⟨he, hd', hac⟩ :=
    (Exact.init hro hs).joinRun hbounds hk hm hd htyped hrun
  rw [nil_append] at he
  refine ⟨hac, fun side => ?_, he.rowsOf_perm hd' hend⟩
  have hl : (acceptedOf side (j.joinRun inputs).sent).length = j'.sequence side := by
    rw [← length_map (·.ordinal), he.ordinals, length_range']
  rw [he.ordinals, ← hl, ← hac, acceptedRows, length_map]

/-- Two left rows, one with a partner at the upper bound, and the end of both inputs. -/
def sampleJoinInputs : List JoinInput :=
  [.row .left (sampleJoinRow (.int64 1) 10) (.all 0), .row .left (sampleJoinRow (.int64 2) 30) (.all 0),
    .watermark .left 40 (.all 0), .row .right (sampleJoinRow (.int64 1) 20) (.all 0),
    .watermark .right i64Max (.all 0), .watermark .left i64Max (.all 0)]

theorem exact_join_sample : (rowsOf (sampleJoin.joinRun sampleJoinInputs).sent).Perm
      (sampleJoin.joined (acceptedOf .left (sampleJoin.joinRun sampleJoinInputs).sent)
        (acceptedOf .right (sampleJoin.joinRun sampleJoinInputs).sent)) ∧
    (rowsOf (sampleJoin.joinRun sampleJoinInputs).sent).map (·.values) =
      [[.int64 1, .int64 10, .int64 1, .int64 20, .int64 20, .int64 1, .int64 1],
        [.int64 2, .int64 30, .null, .null, .int64 30, .int64 2, .null]] := by
  have hr : (sampleJoin.joinRun sampleJoinInputs).result =
      .ok (Result.value (sampleJoin.joinRun sampleJoinInputs).result (by decide)) := Result.eq_value _
  refine ⟨(exact_join (Result.eq_value _) (.inl rfl) ?_ hr ?_).2.2, rfl⟩
  · simp only [sampleJoinInputs, forall_mem_cons]
    exact ⟨rfl, rfl, trivial, rfl, trivial, trivial, by simp⟩
  · rintro (_ | _) <;> decide

end Sparrow.Runtime
