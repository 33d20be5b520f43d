import Mathlib.Data.List.TakeWhile
import Sparrow.Checkpoint.WindowFrame

/-!
# Deduplication

`sparrow-runtime/src/dedup.rs`: of the rows of a key one is kept, and those that follow it are dropped for
`ttl_micros`. The keys that are stored are also listed by when they expire, so that only the due ones are looked at.

## What is proved

* `deduplication` — while the list gets its memory, a row is returned exactly if no row of its key
  was kept within the time to live, and the keys stored are those kept within it.
* `stored_for_good` — otherwise a key may be stored without being listed, and never expires.
-/

namespace Sparrow.Runtime

open Library Model SortedMap List

/-- `DedupSpec`. -/
structure DedupSpec where
  keys : List String
  ttlMicros : Int64
  maxKeys : ℕ

/-- `validate`. -/
def DedupSpec.validate (spec : DedupSpec) : Result Unit := do
  refuseIf (spec.keys = []) (.new .invalidArgument "deduplicate requires at least one key")
  refuseIf ((spec.ttlMicros : ℤ) ≤ 0)
    ((SparrowError.new .invalidArgument "unbounded forever-dedup is rejected: ttl_micros must be > 0").withContext
      "hint" "set an explicit TTL scope")
  refuseIf (spec.maxKeys = 0) (.new .boundExceeded
    "unbounded forever-dedup is rejected: max_keys must be > 0")

/-- A row was looked at. -/
structure Decision where
  key : Bytes
  time : ℤ
  kept : Bool

structure DedupOperator where
  ttlMicros : Int64
  keyIdx : List ℕ
  state : MemoryState ℤ
  expiry : SortedMap (ℤ ×ₗ Bytes) (List Scalar)

namespace DedupOperator

/-- `DedupOperator::new`. -/
def new (operator : ℕ) (spec : DedupSpec) (input : Schema) (budgetKeys : ℕ) : Result DedupOperator := do
  spec.validate
  let keyIdx ← WindowOperator.resolveKeys input spec.keys
  let state ← MemoryState.new operator spec.maxKeys budgetKeys
  return { ttlMicros := spec.ttlMicros, keyIdx, state, expiry := .empty }

variable (d : DedupOperator)

def key (row : Row) : List Scalar := d.keyIdx.map fun i => row.values.getD i .null

def expireAt (lastSeen : ℤ) : ℤ := satAddI lastSeen d.ttlMicros

/-- `unindex_expiry` and the removal of the key. -/
def forget (lastSeen : ℤ) (key : List Scalar) : DedupOperator :=
  { d with expiry := d.expiry.erase (toLex (d.expireAt lastSeen,
    encodeKeyValues key)), state := d.state.remove key }

/-- The end of `admit`, with `index_expiry`: memory for the list is asked for when the key is stored. -/
def store (leases : Leases) (i : ℕ) (key : List Scalar) (now : ℤ) : Result Bool × DedupOperator :=
  match d.state.put (leases (.entry i)) key now with
  | .error e => (.error e, d)
  | .ok state =>
    match leases (.index i) with
    | .error e => (.error e, { d with state })
    | .ok () => (.ok true, { d with state, expiry := d.expiry.insert (toLex
        (d.expireAt now, encodeKeyValues key)) key })

/-- `admit`, for the row number `i` of a batch. -/
def admitRow (leases : Leases) (i : ℕ) (row : Row) (now : ℤ) : Result Bool × DedupOperator :=
  match d.state.get? (d.key row) with
  | some lastSeen =>
    if satSubI now lastSeen < d.ttlMicros then (.ok false, d)
    else (d.forget lastSeen (d.key row)).store leases i (d.key row) now
  | none => d.store leases i (d.key row) now

/-- `expire`: what is due is popped from the list. -/
def expire (now : ℤ) : DedupOperator :=
  { d with
    expiry := d.expiry.popWhile fun e => e.1.1 ≤ now
    state := (d.expiry.entries.takeWhile fun e => e.1.1 ≤ now).foldl (fun s e => s.remove e.2) d.state }

/-- The loop of `on_batch`: the decisions, the rows to keep, and the operator. -/
def admitRows (leases : Leases) (now : ℤ) : ℕ → List Row → DedupOperator →
    List Decision × Result (List Row) × DedupOperator
  | _, [], d => ([], .ok [], d)
  | i, row :: rest, d =>
    match d.admitRow leases i row now with
    | (.error e, d') => ([], .error e, d')
    | (.ok kept, d') =>
      let (decisions, keep, d'') := admitRows leases now (i + 1) rest d'
      (⟨encodeKeyValues (d.key row), now, kept⟩ :: decisions, keep.map fun rows =>
        if kept then row :: rows else rows, d'')

/-- `on_batch`. -/
def onBatch (leases : Leases) (rows : List Row) (now : ℤ) :
    List Decision × Result (List Row) × DedupOperator :=
  admitRows leases now 0 rows (d.expire now)

/-- A batch, the time, and what the memory owner answers. -/
structure Call where
  rows : List Row
  now : ℤ
  leases : Leases

/-- What a call decided, row by row up to an error, and what it returned. -/
structure Report where
  decisions : List Decision
  returned : Result (List Row)

/-- One call. -/
def step (c : Call) : List Report × DedupOperator :=
  let (decisions, returned, d) := d.onBatch c.leases c.rows c.now
  ([{ decisions, returned }], d)

/-- The reports of a sequence of calls, failed ones included, and the operator after them. -/
def run (d : DedupOperator) (calls : List Call) : List Report × DedupOperator := Machine.run step d calls

/-- All that was decided. -/
def traceOf (reports : List Report) : List Decision := reports.flatMap (·.decisions)

/-- The decisions of a report are on the first rows of the call, in order; a call that returns has decided on
all of its rows, and returns those that are kept. -/
structure Answers (c : Call) (report : Report) : Prop where
  decided : (report.decisions.map fun x => (x.key, x.time)) <+: c.rows.map fun row =>
    (encodeKeyValues (d.key row), c.now)
  returned : ∀ rows, report.returned = .ok rows → report.decisions.length = c.rows.length ∧
    rows = ((c.rows.zip report.decisions).filter (·.2.kept)).map Prod.fst

/-! ### What is stored -/

/-- When the row of a key was kept, if the key is stored. -/
def lastSeen (k : Bytes) : Option ℤ := (d.state.entries.get? k).map (·.value)

/-- A row is kept exactly if no row of its key was kept within the time to live before. -/
def Lawful (ttl : ℤ) (trace : List Decision) : Prop :=
  ∀ pre x post, trace = pre ++ x :: post →
    (x.kept = true ↔ ∀ y ∈ pre, y.key = x.key → y.kept = true → y.time + ttl ≤ x.time)

/-- What is kept of what was decided, up to the time of the last call. -/
structure Seen (spec : DedupSpec) (trace : List Decision) (now : ℤ) (d : DedupOperator) : Prop where
  ttl : d.ttlMicros = spec.ttlMicros
  maxKeys : d.state.maxKeys ≤ spec.maxKeys
  sound : d.state.Sound
  stored : ∀ {k t}, d.lastSeen k = some t ↔ ⟨k, t, true⟩ ∈ trace ∧ now < t + spec.ttlMicros
  listed : ∀ {e k}, (∃ key, d.expiry.get? (toLex (e, k)) = some key) ↔
    d.lastSeen k = some (e - spec.ttlMicros)
  keyed : ∀ {e k key}, d.expiry.get? (toLex (e, k)) = some key → encodeKeyValues key = k
  past : ∀ x ∈ trace, x.time ≤ now
  lawful : Lawful spec.ttlMicros trace

variable {spec : DedupSpec} {d : DedupOperator} {trace : List Decision} {now : ℤ} {leases : Leases}
  {k : Bytes}

theorem Lawful.concat {ttl : ℤ} {x : Decision} (h : Lawful ttl trace)
    (hx : x.kept = true ↔ ∀ y ∈ trace, y.key = x.key → y.kept = true → y.time + ttl ≤ x.time) :
    Lawful ttl (trace ++ [x]) := by
  intro pre y post heq
  obtain ⟨rfl, rfl⟩ | ⟨post, rfl⟩ := append_singleton_split heq
  · exact hx
  · exact h pre y post rfl

theorem get?_foldl_remove (due : List ((ℤ ×ₗ Bytes) × List Scalar)) (s : MemoryState ℤ) :
    (due.foldl (fun s e => s.remove e.2) s).entries.get? k =
      if ∃ e ∈ due, encodeKeyValues e.2 = k then none else s.entries.get? k := by
  induction due generalizing s with
  | nil => simp
  | cons e rest ih =>
    rw [foldl_cons, ih, MemoryState.remove, get?_erase]
    by_cases he : encodeKeyValues e.2 = k
    · simp [he]
    · simp only [if_neg (Ne.symm he), exists_mem_cons_iff, he, false_or]

theorem popWhile_due (m : SortedMap (ℤ ×ₗ Bytes) (List Scalar)) (now : ℤ) :
    m.entries.dropWhile (fun e => decide (e.1.1 ≤ now)) = m.entries.filter fun e =>
      !decide (e.1.1 ≤ now) := by
  refine dropWhile_eq_filter m.sorted fun a _ b _ hab hb => ?_
  have hle : a.1.1 ≤ b.1.1 := (Prod.Lex.lt_iff.mp hab).elim le_of_lt fun h => h.1.le
  simp only [decide_eq_true_eq] at hb ⊢
  exact hle.trans hb

theorem mem_due {e : (ℤ ×ₗ Bytes) × List Scalar} : e ∈ d.expiry.entries.takeWhile (fun e => e.1.1 ≤ now) ↔
    e ∈ d.expiry.entries ∧ e.1.1 ≤ now := by
  have hs := takeWhile_append_dropWhile (p := fun e => decide (e.1.1 ≤ now)) (l := d.expiry.entries)
  rw [popWhile_due] at hs
  refine ⟨fun he => ⟨(takeWhile_sublist _).subset he, by simpa using mem_takeWhile_imp he⟩,
    fun ⟨he, hd⟩ => ?_⟩
  rw [← hs, mem_append] at he
  exact he.resolve_right fun hl => by simp [hd] at hl

theorem Seen.expire {now' : ℤ} (h : Seen spec trace now d) (hle : now ≤ now') :
    Seen spec trace now' (d.expire now') := by
  have hr : ∀ k, (∃ e ∈ d.expiry.entries.takeWhile (fun e => e.1.1 ≤ now'), encodeKeyValues e.2 = k) ↔
      ∃ t, d.lastSeen k = some t ∧ t + spec.ttlMicros ≤ now' := by
    intro k
    constructor
    · rintro ⟨⟨⟨e, k'⟩, key⟩, he, rfl⟩
      obtain ⟨he, hd⟩ := mem_due.mp he
      replace he := mem_entries_iff.mp he
      obtain rfl := h.keyed he
      exact ⟨_, h.listed.mp ⟨key, he⟩, by simpa using hd⟩
    · rintro ⟨t, ht, hd⟩
      obtain ⟨key, hk⟩ := h.listed.mpr (ht.trans
        (congrArg some (add_sub_cancel_right t (spec.ttlMicros : ℤ)).symm))
      exact ⟨_, mem_due.mpr ⟨mem_entries_iff.mpr hk, hd⟩, h.keyed hk⟩
  have hl : ∀ {k t}, (d.expire now').lastSeen k = some t ↔
      d.lastSeen k = some t ∧ now' < t + spec.ttlMicros := by
    intro k t
    rw [lastSeen, DedupOperator.expire, get?_foldl_remove, if_congr (hr k) rfl rfl]
    split_ifs with hd
    · obtain ⟨t', ht', hd⟩ := hd
      simp only [Option.map_none, reduceCtorEq, ht', Option.some.injEq, false_iff, not_and, not_lt]
      rintro rfl
      exact hd
    · exact ⟨fun ht => ⟨ht, lt_of_not_ge fun hle => hd ⟨t, ht, hle⟩⟩, And.left⟩
  have hexp : ∀ {e k key}, (d.expire now').expiry.get? (toLex (e, k)) = some key ↔
      d.expiry.get? (toLex (e, k)) = some key ∧ now' < e := by
    intro e k key
    rw [← mem_entries_iff, DedupOperator.expire, entries_popWhile, popWhile_due, mem_filter,
      mem_entries_iff, Bool.not_eq_true', decide_eq_false_iff_not, not_le]
    rfl
  have hst : (d.expire now').state.maxKeys ≤ spec.maxKeys ∧ (d.expire now').state.Sound :=
    List.foldlRecOn (motive := fun s : MemoryState ℤ => s.maxKeys ≤ spec.maxKeys ∧ s.Sound) _ _
      ⟨h.maxKeys, h.sound⟩
      fun s hs e _ => ⟨hs.1, hs.2.remove e.2⟩
  refine ⟨h.ttl, hst.1, hst.2, fun {k t} => ?_, fun {e k} => ?_, fun hk => h.keyed (hexp.mp hk).1,
    fun x hx => (h.past x hx).trans hle, h.lawful⟩
  · rw [hl, h.stored]
    exact ⟨fun ht => ⟨ht.1.1, ht.2⟩, fun ht => ⟨⟨ht.1, hle.trans_lt ht.2⟩, ht.2⟩⟩
  · simp only [hexp, exists_and_right, h.listed, hl, sub_add_cancel]

section

variable (h : Seen spec trace now d)

include h

theorem Seen.drop {t : ℤ} (ht : d.lastSeen k = some t) : Seen spec (trace ++ [⟨k, now, false⟩]) now d := by
  refine { h with
    stored := by simp [h.stored], past := List.forall_mem_append.mpr
      ⟨h.past, by simp⟩, lawful := h.lawful.concat ?_ }
  obtain ⟨hm, hlt⟩ := h.stored.mp ht
  simp only [Bool.false_eq_true, false_iff, not_forall, not_le]
  exact ⟨_, hm, rfl, rfl, hlt⟩

theorem Seen.keep (httl : 0 < (spec.ttlMicros : ℤ)) {key : List Scalar}
    (hn : d.lastSeen (encodeKeyValues key) = none)
    {state : MemoryState ℤ} (hma : state.maxKeys = d.state.maxKeys) (hs : state.Sound)
    (hst : state.entries = d.state.entries.insert (encodeKeyValues key) { key, value := now }) :
    Seen spec (trace ++ [⟨encodeKeyValues key, now, true⟩]) now
      { d with state, expiry := d.expiry.insert (toLex
        (now + spec.ttlMicros, encodeKeyValues key)) key } := by
  have hl : ∀ {k t}, (state.entries.get? k).map (·.value) = some t ↔
      k = encodeKeyValues key ∧ t = now ∨ d.lastSeen k = some t := by
    intro k t
    rw [hst, get?_insert]
    split_ifs with hk
    · rw [hk, hn]
      simp [eq_comm]
    · simp [hk, lastSeen]
  refine ⟨h.ttl, hma.trans_le h.maxKeys, hs, fun {k t} => hl.trans ?_, fun {e k} =>
    ?_, fun {e k key'} hke => ?_, List.forall_mem_append.mpr ⟨h.past, by simp⟩, h.lawful.concat ?_⟩
  · rw [h.stored]
    simp only [mem_append, mem_singleton, Decision.mk.injEq, and_true]
    constructor
    · rintro (⟨rfl, rfl⟩ | ⟨hm, hlt⟩)
      · exact ⟨.inr ⟨rfl, rfl⟩, by simpa using httl⟩
      · exact ⟨.inl hm, hlt⟩
    · rintro ⟨hm | hne, hlt⟩
      · exact .inr ⟨hm, hlt⟩
      · exact .inl hne
  · have hp : toLex (e, k) = toLex (now + (spec.ttlMicros : ℤ), encodeKeyValues key) ↔
        k = encodeKeyValues key ∧ e - spec.ttlMicros = now := by
      rw [toLex_inj, Prod.mk.injEq, and_comm, sub_eq_iff_eq_add]
    refine Iff.trans ?_ hl.symm
    rw [← h.listed, ← hp]
    by_cases hk : toLex (e, k) = toLex (now + (spec.ttlMicros : ℤ), encodeKeyValues key) <;>
      simp [get?_insert, hk]
  · obtain ⟨heq, rfl⟩ | ⟨-, hke⟩ := get?_insert_eq_some.mp hke
    · exact (congrArg Prod.snd (toLex.injective heq)).symm
    · exact h.keyed hke
  · simp only [true_iff]
    rintro ⟨k, t, kept⟩ hm rfl rfl
    by_contra hlt
    have hsto := h.stored.mpr ⟨hm, not_le.mp hlt⟩
    simp [hn] at hsto

end

section

variable (httl : 0 < (spec.ttlMicros : ℤ))

include httl

theorem Seen.admitRow (h : Seen spec trace now d) (hf : fitsI64 (now + spec.ttlMicros)) (i : ℕ) (row : Row)
    (hi : leases (.index i) = .ok ()) : match d.admitRow leases i row now with
    | (.error _, d') => Seen spec trace now d'
    | (.ok kept, d') => Seen spec (trace ++ [⟨encodeKeyValues (d.key row), now, kept⟩]) now d' := by
  unfold DedupOperator.admitRow
  cases hg : d.state.get? (d.key row) with
  | some t =>
    obtain ⟨hme, hlt⟩ := h.stored.mp hg
    have hle := h.past _ hme
    have hsu : satSubI now t < spec.ttlMicros := by
      have hm := toInt_le_i64Max spec.ttlMicros
      simp only [satSubI, clampI64, i64Min, i64Max] at hm hle ⊢
      omega
    simp only [h.ttl, if_pos hsu]
    exact h.drop hg
  | none =>
    have hat : d.expireAt now = now + spec.ttlMicros := by
      rw [expireAt, satAddI, clampI64, h.ttl]
      simp only [fitsI64_iff] at hf
      omega
    simp only [store, hi, hat]
    cases hp : d.state.put (leases (.entry i)) (d.key row) now with
    | error e => exact h
    | ok state =>
      obtain ⟨hs, hso⟩ := MemoryState.Sound.put hp
      refine h.keep httl hg (congrArg MemoryState.maxKeys hs :) (hso h.sound) ?_
      replace hp := after_check (after_check hp)
      cases hp
      have hn : d.state.entries.get? (encodeKeyValues (d.key row)) = none := Option.map_eq_none_iff.mp hg
      rw [hn]
      rfl

theorem Seen.admitRows (hf : fitsI64 (now + spec.ttlMicros)) (hi : ∀ i, leases (.index i) = .ok ()) :
    ∀ (rows : List Row) {i : ℕ} {trace : List Decision} {d : DedupOperator}, Seen spec trace now d →
      Seen spec (trace ++ (admitRows leases now i rows d).1) now (admitRows leases now i rows d).2.2
  | [], _, _, _, h => by rwa [DedupOperator.admitRows, append_nil]
  | row :: rest, i, trace, d, h => by
    have hr := h.admitRow httl hf i row (hi i)
    unfold DedupOperator.admitRows
    split
    next heq =>
      rw [heq] at hr
      rwa [append_nil]
    next heq =>
      rw [heq] at hr
      have hre := Seen.admitRows hf hi rest hr (i := i + 1)
      rwa [append_assoc] at hre

theorem run_seen (hd : ∀ now, Seen spec [] now d) {calls : List Call} {c : Call}
    (hc : ((calls ++ [c]).map (·.now)).Pairwise (· ≤ ·))
    (hf : ∀ c' ∈ calls ++ [c], fitsI64 (c'.now + spec.ttlMicros))
    (hi : ∀ c' ∈ calls ++ [c], ∀ i, c'.leases (.index i) = .ok ()) :
    Seen spec (traceOf (run d (calls ++ [c])).1) c.now (run d (calls ++ [c])).2 := by
  induction calls using List.reverseRecOn generalizing c with
  | nil =>
    have h := ((hd c.now).expire le_rfl).admitRows httl (hf c (by simp)) (hi c (by simp)) c.rows (i := 0)
    simpa [run, traceOf, Machine.run, step, onBatch] using h
  | append_singleton calls c' ih =>
    rw [map_append, pairwise_append] at hc
    rw [forall_mem_append] at hf hi
    have hle : c'.now ≤ c.now := hc.2.2 _ (by simp) _ (by simp)
    have hs := (ih hc.1 hf.1 hi.1).expire hle
    rw [run, Machine.run_append, traceOf, flatMap_append]
    simp only [Machine.run, append_nil]
    rw [step, flatMap_singleton]
    exact hs.admitRows httl (hf.2 c (by simp)) (hi.2 c (by simp)) c.rows

end

theorem keyIdx_admitRow (leases : Leases) (i : ℕ) (row : Row) (now : ℤ) :
    (d.admitRow leases i row now).2.keyIdx = d.keyIdx := by
  unfold admitRow store
  repeat' split
  all_goals rfl

theorem answers_admitRows (d₀ : DedupOperator) (leases : Leases) (now : ℤ) :
    ∀ (rows : List Row) {i : ℕ} {d : DedupOperator}, d.keyIdx = d₀.keyIdx →
      (admitRows leases now i rows d).2.2.keyIdx = d₀.keyIdx ∧
      d₀.Answers ⟨rows, now, leases⟩ ⟨(admitRows leases now i rows d).1, (admitRows leases now i rows d).2.1⟩
  | [], _, _, hd => ⟨hd, ⟨by simp [admitRows], by simp [admitRows]⟩⟩
  | row :: rest, i, d, hd => by
    have hi := keyIdx_admitRow (d := d) leases i row now
    unfold admitRows
    split
    next heq =>
      rw [heq] at hi
      exact ⟨hi.trans hd, ⟨by simp, by simp⟩⟩
    next kept d' heq =>
      rw [heq] at hi
      obtain ⟨hl, hr⟩ := answers_admitRows d₀ leases now rest (i := i + 1) (hi.trans hd)
      have hk : d.key row = d₀.key row := by rw [key, hd, key]
      refine ⟨hl, ⟨?_, ?_⟩⟩
      · simpa [hk] using hr.decided
      · intro out ho
        obtain ⟨outs, hou, rfl⟩ := map_eq_ok.mp ho
        obtain ⟨hle, rfl⟩ := hr.returned outs hou
        refine ⟨by simpa using hle, ?_⟩
        cases kept <;> simp

/-- **Every call answers for its rows.** -/
theorem answers_run (d₀ : DedupOperator) (calls : List Call) {d : DedupOperator} (hd : d.keyIdx = d₀.keyIdx) :
    List.Forall₂ d₀.Answers calls (run d calls).1 := by
  induction calls generalizing d with
  | nil => exact .nil
  | cons c rest ih =>
    obtain ⟨hl, hc⟩ := answers_admitRows d₀ c.leases c.now c.rows (i := 0) (d := d.expire c.now) hd
    exact .cons hc (ih hl)

theorem new_ok {operator : ℕ} {input : Schema} {budgetKeys : ℕ} :
    (new operator spec input budgetKeys).Ensures fun d =>
    0 < (spec.ttlMicros : ℤ) ∧ ∀ now, Seen spec [] now d := by
  refine .bind fun _ hv => .bind fun keyIdx _ => .bind fun state hs => .ok ?_
  have httl := not_le.mp (guard_eq_ok.mp (guard_eq_ok.mp hv).2).1
  unfold MemoryState.new at hs
  split_ifs at hs
  cases hs
  exact ⟨httl, fun now => ⟨rfl, min_le_left ..,
    ⟨by simp, by simp⟩, by simp [lastSeen], by simp [lastSeen], by simp, by simp,
    by simp [Lawful]⟩⟩

theorem Seen.size_eq (h : Seen spec trace now d) : d.state.entries.size =
    ((trace.filter fun x => x.kept ∧ now < x.time + spec.ttlMicros).map (·.key)).toFinset.card := by
  have hn : (d.state.entries.entries.map Prod.fst).Nodup :=
    List.pairwise_map.mpr (d.state.entries.sorted.imp fun hlt => hlt.ne)
  rw [size, ← length_map (f := Prod.fst), ← toFinset_card_of_nodup hn]
  congr 1
  ext k
  have hs : (∃ v, (k, v) ∈ d.state.entries.entries) ↔ ∃ t, d.lastSeen k = some t := by
    simp [mem_entries_iff, lastSeen]
  simp only [mem_toFinset, mem_map, Prod.exists, exists_and_right, exists_eq_right, hs, h.stored,
    mem_filter, decide_eq_true_eq]
  constructor
  · rintro ⟨t, hm, hlt⟩
    exact ⟨_, ⟨hm, rfl, hlt⟩, rfl⟩
  · rintro ⟨⟨_, t, _⟩, ⟨hm, rfl, hlt⟩, rfl⟩
    exact ⟨t, hm, hlt⟩

/-- **Deduplication.** In every run in which the list gets its memory, every call that returns gives back exactly the
rows it decided to keep, and a row is kept exactly if no row of its key was kept within the time to live; after every
call the keys that are stored are those kept within the time to live, at most as many as there may be, and each is
listed once, for when it expires. -/
theorem deduplication {operator : ℕ} {input : Schema} {budgetKeys : ℕ}
    (hnew : new operator spec input budgetKeys = .ok d) {calls : List Call} {c : Call}
    (hclock : ((calls ++ [c]).map (·.now)).Pairwise (· ≤ ·))
    (hfits : ∀ c' ∈ calls ++ [c], fitsI64 (c'.now + spec.ttlMicros))
    (hindex : ∀ c' ∈ calls ++ [c], ∀ i, c'.leases (.index i) = .ok ()) :
    let (reports, d') := run d (calls ++ [c])
    List.Forall₂ d.Answers (calls ++ [c]) reports ∧
    Lawful spec.ttlMicros (traceOf reports) ∧
    (d'.state.entries.size ≤ spec.maxKeys ∧ d'.state.entries.size =
      (((traceOf reports).filter fun x => x.kept ∧ c.now < x.time + spec.ttlMicros).map
        (·.key)).toFinset.card) ∧
    (∀ e k, (∃ key, d'.expiry.get? (toLex (e, k)) = some key) ↔ d'.lastSeen k = some (e - spec.ttlMicros)) ∧
    ∀ k t, d'.lastSeen k = some t → c.now < t + spec.ttlMicros := by
  obtain ⟨httl, hs⟩ := new_ok hnew
  have h := run_seen httl hs hclock hfits hindex
  exact ⟨answers_run d _ rfl, h.lawful, ⟨h.sound.bounded.trans h.maxKeys, h.size_eq⟩, fun e k => h.listed,
    fun k t ht => (h.stored.mp ht).2⟩

/-- One key column, a time to live of 10, and at most two keys. -/
def sample : DedupOperator :=
  { ttlMicros := 10, keyIdx := [0], state := { operator := 0, maxKeys := 2, entries := .empty }, expiry := .empty }

/-- A batch of one row. -/
def sampleCall (key : Int64) (now : ℤ) (leases : Leases) : Call := ⟨[⟨[.int64 key]⟩], now, leases⟩

/-- A row, the same key too early and again in time. -/
def sampleCalls : List Call := [sampleCall 1 0 .all, sampleCall 1 9 .all, sampleCall 1 10 .all]

theorem deduplication_sample :
    (run sample sampleCalls).1.map (·.returned) = [.ok [⟨[.int64 1]⟩], .ok [], .ok [⟨[.int64 1]⟩]] ∧
    List.Forall₂ sample.Answers sampleCalls (run sample sampleCalls).1 ∧
    (run sample sampleCalls).2.state.entries.size ≤ 2 := by
  have hn : new 0 ⟨["k"], 10, 2⟩ ⟨[⟨"k", .int64, false⟩]⟩ 100 = .ok sample := rfl
  have hc : (([sampleCall 1 0 .all, sampleCall 1 9 .all] ++ [sampleCall 1 10 .all]).map
      (·.now)).Pairwise (· ≤ ·) := by
    decide
  have h := deduplication hn hc (by decide) (by simp [sampleCall, Leases.all])
  exact ⟨rfl, h.1, h.2.2.1.1⟩

/-- **A key that never expires.** The list gets no memory for the only row of a key: the call fails, nothing was
kept, and long after the time to live the key is still stored. -/
theorem stored_for_good :
    let (reports, d) := run sample [sampleCall 1 0 fun site =>
      if site = .index 0 then .error (.new .resourceExhausted "") else .ok (),
      ⟨[], 1000, .all⟩]
    ((traceOf reports).length, d.expiry.size, d.state.entries.size) = (0, 0, 1) := by
  decide

end DedupOperator

end Sparrow.Runtime
