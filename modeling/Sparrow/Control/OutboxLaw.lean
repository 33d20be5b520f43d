import Mathlib.Algebra.BigOperators.Group.List.Basic
import Mathlib.Data.List.Range
import Sparrow.Control.Outbox
import Sparrow.Library.Machine

/-!
# What every run of the outbox keeps

A run is any sequence of transactions, each with any arguments, of transactions that fail and of
crashes, after which the database is as it was. `Changes` says once what a transaction can do to
the counters and the entries; the laws are kept by each of its cases.

## What is proved

* `outbox_conserves` — no accepted record is lost, and the budgets hold.
* `sent_after_replay` — an entry can be attempted for the first time after one that came later.
-/

namespace Sparrow.Control

open Library Model SortedMap List

variable {trace : List Event} {e' : Entry} {event : Event}

namespace Store

/-! ### Runs -/

/-- What is seen of a call. -/
inductive Event where
  | accepted (id : ℤ)
  | sent (id : ℤ) (attempt : ℕ)
  | replayed (id : ℤ)
  deriving DecidableEq

inductive Call where
  /-- `enqueue`. -/
  | enqueue (body : Bytes) (now : ℕ)
  /-- `next`. -/
  | next (now : ℕ) (grant : Result Unit)
  /-- `settle`. -/
  | settle (key : String) (attempt : ℕ) (outcome : Outcome) (now : ℕ)
  /-- `command`. -/
  | command (request : Command) (now : ℕ)
  | rolledBack
  | reopen

def Call.now : Call → ℕ
  | .enqueue _ now | .next now _ | .settle _ _ _ now | .command _ now => now
  | .rolledBack | .reopen => 0

def step (spec : OutboxSpec) (hash : Bytes → String) (s : Store) : Call → List Event × Store
  | .enqueue body now =>
    match s.enqueue spec hash body now with
    | .ok (id, s') => ([.accepted id], s')
    | .error _ => ([], s)
  | .next now grant =>
    match s.next spec hash now grant with
    | .ok (some request, s') => ([.sent request.id request.attempt], s')
    | .ok (none, s') => ([], s')
    | .error _ => ([], s)
  | .settle key attempt outcome now =>
    match s.settle spec key attempt outcome now with
    | .ok s' => ([], s')
    | .error _ => ([], s)
  | .command request now =>
    match s.command spec request now with
    | .ok (some id, s') => (if request.action = "replay" then [.replayed id] else [], s')
    | .ok (none, s') => ([], s')
    | .error _ => ([], s)
  | .rolledBack | .reopen => ([], s)

def run (spec : OutboxSpec) (hash : Bytes → String) (uuid : String) (calls : List Call) :
    List Event × Store :=
  Machine.run (step spec hash) (.new uuid) calls

/-! ### Sums over the entries -/

def weight (es : SortedMap ℤ Entry) (f : Entry → ℕ) : ℕ := (es.entries.map fun e => f e.2).sum

def inCount (pool : EntryState) (e : Entry) : ℕ := if inPool pool e then 1 else 0

def inBytes (pool : EntryState) (e : Entry) : ℕ := if inPool pool e then e.body.length else 0

theorem sum_filter_map {α : Type*} (p : α → Bool) (f : α → ℕ) (l : List α) :
    ((l.filter p).map f).sum = (l.map fun a => if p a then f a else 0).sum := by
  induction l with
  | nil => rfl
  | cons a rest ih => by_cases h : p a <;> simp [h, ih]

theorem poolTotals_eq (s : Store) (pool : EntryState) :
    s.poolTotals pool = (weight s.entries (inCount pool), weight s.entries (inBytes pool)) := by
  have hc := sum_filter_map (fun e : ℤ × Entry => inPool pool e.2) (fun _ => 1) s.entries.entries
  rw [map_const', sum_replicate_nat, mul_one] at hc
  exact Prod.ext hc (sum_filter_map _ _ _)

variable {es : SortedMap ℤ Entry} {id : ℤ} {e : Entry}

theorem weight_insert_new (h : es.get? id = none) (e : Entry) (f : Entry → ℕ) :
    weight (es.insert id e) f = weight es f + f e := sum_insert_of_none h e fun e => f e.2

theorem weight_insert (h : es.get? id = some e) (e' : Entry) (f : Entry → ℕ) :
    weight (es.insert id e') f + f e = weight es f + f e' := sum_insert h e' fun e => f e.2

theorem weight_erase (h : es.get? id = some e) (f : Entry → ℕ) : weight (es.erase id) f + f e = weight es f :=
  sum_erase h fun e => f e.2

/-- There is room in a pool for one more of `add` bytes. -/
def Room (spec : OutboxSpec) (es : SortedMap ℤ Entry) (pool : EntryState) (add : ℕ) : Prop :=
  weight es (inCount pool) < (caps spec pool).1 ∧ weight es (inBytes pool) + add ≤ (caps spec pool).2

variable {spec : OutboxSpec}

theorem caps_lt (hspec : spec.validate = .ok ()) (pool : EntryState) : (caps spec pool).2 < usizeMax := by
  have h := refuseIf_eq_ok.mp hspec
  push Not at h
  unfold satAdd usizeMax at *
  cases pool <;> simp only [caps] <;> omega

variable {s : Store}

theorem capacity_ok (hspec : spec.validate = .ok ()) {pool : EntryState} {add : ℕ}
    (h : s.capacity spec pool add = .ok ()) : Room spec s.entries pool add := by
  have hc := caps_lt hspec pool
  unfold capacity at h
  rw [poolTotals_eq] at h
  have hr := refuseIf_eq_ok.mp h
  unfold Room
  unfold satAdd at hr
  omega

/-! ### What a transaction can do -/

def First (es : SortedMap ℤ Entry) (id : ℤ) : Prop :=
  ∀ id' e', es.get? id' = some e' → e'.state ≠ .dlq → id ≤ id'

/-- What a transaction does to the counters and the entries, and what is seen of it. -/
inductive Changes (spec : OutboxSpec) (m : Meta) (es : SortedMap ℤ Entry) :
    List Event → Meta → SortedMap ℤ Entry → Prop where
  | pause (paused : Bool) : Changes spec m es [] { m with paused } es
  | accept {e : Entry} (hstate : e.state = .pending) (hattempts : e.attempts = 0)
      (hgeneration : e.replayGeneration = 0)
      (hbody : e.body.length ≤ spec.maxRecordBytes) (htimes : 0 ≤ e.createdMs ∧ 0 ≤ e.nextMs)
      (hroom : Room spec es .pending e.body.length) :
      Changes spec m es [.accepted m.nextId] { m with nextId := m.nextId + 1, accepted := m.accepted + 1 }
        (es.insert m.nextId e)
  | send {id : ℤ} {e : Entry} {nextMs : ℤ} (hget : es.get? id = some e)
      (hstate : e.state = .pending) (hfirst : First es id)
      (hpaused : m.paused = false) (hattempts : e.attempts < spec.maxAttempts) (hnext : 0 ≤ nextMs) :
      Changes spec m es [.sent id (e.attempts + 1)] m
        (es.insert id { e with attempts := e.attempts + 1, nextMs })
  | deliver {id : ℤ} {e : Entry} (hget : es.get? id = some e) (hstate : e.state = .pending) :
      Changes spec m es [] { m with delivered := m.delivered + 1 } (es.erase id)
  | delay {id : ℤ} {e : Entry} {nextMs : ℤ} {reason : String} (hget : es.get? id = some e)
      (hnext : 0 ≤ nextMs) :
      Changes spec m es [] m (es.insert id { e with nextMs, reason })
  | block {id : ℤ} {e : Entry} {reason : String} (hget : es.get? id = some e) (hstate : e.state ≠ .dlq) :
      Changes spec m es [] m (es.insert id { e with state := .blocked, reason })
  | die {id : ℤ} {e : Entry} {reason : String} (hget : es.get? id = some e) (hstate : e.state ≠ .dlq)
      (hroom : Room spec es .dlq e.body.length) :
      Changes spec m es [] { m with dead := m.dead + 1 } (es.insert id { e with state := .dlq, reason })
  | replay {id : ℤ} {e : Entry} {now : ℤ} (hget : es.get? id = some e) (hstate : e.state = .dlq)
      (hnow : 0 ≤ now)
      (hroom : Room spec es .pending e.body.length) :
      Changes spec m es [.replayed id] { m with replayed := m.replayed + 1 }
        (es.insert id { e with
          state := .pending, attempts := 0, createdMs := now, nextMs := now, reason := ""
          replayGeneration := e.replayGeneration + 1 })
  | purge {id : ℤ} {e : Entry} (hget : es.get? id = some e) (hstate : e.state = .dlq) :
      Changes spec m es [] { m with purged := m.purged + 1 } (es.erase id)

theorem Changes.same {m : Meta} : Changes spec m es [] m es := .pause m.paused

theorem asI64_of_lt {n : ℕ} (h : n < 2 ^ 63) : asI64 n = n := by
  unfold asI64
  rw [Int64.toInt_ofNat', Int.bmod_eq_of_le] <;> simp only [Int64.size] <;> omega

section Steps

variable {spec : OutboxSpec} {hash : Bytes → String} {s : Store} {now : ℕ} (hspec : spec.validate = .ok ())
  (hnow : now + spec.retryMaxMs < 2 ^ 63)

include hspec

theorem dead_changes {reason : String} (hg : s.entries.get? id = some e) (hst : e.state ≠ .dlq) :
    (s.dead spec id e.body.length now reason).Ensures fun s' =>
      Changes spec s.totals s.entries [] s'.totals s'.entries := by
  unfold dead
  split
  · split_ifs
    · exact .error
    · refine .ok ?_
      simp only [setEntry, modify_eq_insert hg]
      exact .block hg hst
  next hc =>
    refine .ok ?_
    simp only [setEntry, addAudit, count, modify_eq_insert hg]
    exact .die hg hst (capacity_ok hspec hc)

include hnow

theorem enqueue_changes {body : Bytes} : (s.enqueue spec hash body now).Ensures fun (id, s') =>
    Changes spec s.totals s.entries [.accepted id] s'.totals s'.entries := by
  refine .bind fun _ hb => .bind fun _ hc => .bind fun _ _ => .ok ?_
  have hl := (not_or.mp (refuseIf_eq_ok.mp hb)).1
  have hti : 0 ≤ asI64 now := by rw [asI64_of_lt (by omega)]; omega
  exact .accept rfl rfl rfl (by simpa using hl) ⟨hti, hti⟩ (capacity_ok hspec hc)

omit hspec in
theorem asI64_satAdd {delay : ℕ} (hd : delay ≤ spec.retryMaxMs) : 0 ≤ asI64 (satAdd now delay) := by
  have hlt : satAdd now delay < 2 ^ 63 := by unfold satAdd; omega
  rw [asI64_of_lt hlt]
  omega

omit hspec hnow in
theorem backoff_le (attempts : ℕ) : spec.backoff attempts ≤ spec.retryMaxMs := min_le_right _ _

omit hspec hnow in
theorem head?_eq_some (h : s.head? = some (id, e)) :
    s.entries.get? id = some e ∧ e.state ≠ .dlq ∧ First s.entries id := by
  obtain ⟨hst, before, after, hsp, hb⟩ := List.find?_eq_some_iff_append.mp h
  have hm : (id, e) ∈ s.entries.entries := hsp ▸ by simp
  refine ⟨mem_entries_iff.mp hm, by simpa using hst, fun id' e' hg' hs' => ?_⟩
  have hm' := mem_entries_iff.mpr hg'
  have hso := s.entries.sorted
  rw [hsp] at hm' hso
  rw [mem_append, mem_cons] at hm'
  obtain hm' | hm' | hm' := hm'
  · have := hb _ hm'
    simp [hs'] at this
  · rw [(Prod.mk.inj hm').1]
  · exact ((List.pairwise_cons.mp (List.pairwise_append.mp hso).2.1).1 _ hm').le

omit hspec hnow in
/-- What `next` does: it sends the first in the queue, or sends nothing and at most gives up on it. -/
theorem next_ok {grant : Result Unit} : (s.next spec hash now grant).Ensures fun (request, s') =>
    (request = none ∧ (s' = s ∨ ∃ id e reason, s.entries.get? id = some e ∧ e.state ≠ .dlq ∧
      s.dead spec id e.body.length now reason = .ok s')) ∨
    ∃ id e, s.entries.get? id = some e ∧ e.state = .pending ∧ First s.entries id ∧ s.totals.paused = false ∧
      e.attempts < spec.maxAttempts ∧ request = some { id, attempt := e.attempts + 1, body := e.body } ∧
      s' = s.setEntry id fun e' =>
        { e' with attempts := e.attempts + 1, nextMs := asI64 (satAdd now
          (spec.backoff (e.attempts + 1))) } := by
  unfold next
  split_ifs with hp
  · exact .ok (.inl ⟨rfl, .inl rfl⟩)
  split
  · exact .ok (.inl ⟨rfl, .inl rfl⟩)
  next id e hh =>
    obtain ⟨hg, hst, hf⟩ := head?_eq_some hh
    refine .bind fun created _ => .bind fun next _ => ?_
    split_ifs with hb hsp he
    · exact .bind fun s₁ hd => .ok (.inl ⟨rfl, .inr ⟨id, e, _, hg, hst, hd⟩⟩)
    · exact .bind fun _ _ => .bind fun s₁ hd => .ok (.inl ⟨rfl, .inr ⟨id, e, _, hg, hst, hd⟩⟩)
    · exact .bind fun _ _ => .ok (.inl ⟨rfl, .inl rfl⟩)
    -- the clock, the size, the share of the sender and the digest are checked
    refine .bind fun _ _ => .bind fun _ _ => .bind fun _ _ => .bind fun _ _ => .ok ?_
    have hpe : e.state = .pending := by
      cases hs : e.state <;> simp_all
    exact .inr ⟨id, e, hg, hpe, hf, by simpa using hp, by omega, rfl, rfl⟩

theorem next_changes {grant : Result Unit} : (s.next spec hash now grant).Ensures fun (request, s') =>
    Changes spec s.totals s.entries (request.toList.map fun r => .sent r.id r.attempt) s'.totals
      s'.entries := by
  rintro ⟨request, s'⟩ h
  obtain ⟨rfl, rfl | ⟨id, e, reason, hg, hst, hd⟩⟩ |
    ⟨id, e, hg, hst, hf, hp, ha, rfl, rfl⟩ := next_ok h
  · exact .same
  · exact dead_changes hspec hg hst hd
  · simp only [setEntry, modify_eq_insert hg]
    exact .send hg hst hf hp ha (asI64_satAdd hnow (backoff_le _))

theorem settle_changes {key : String} {attempt : ℕ} {outcome : Outcome} :
    (s.settle spec key attempt outcome now).Ensures fun s' =>
      Changes spec s.totals s.entries [] s'.totals s'.entries := by
  refine .bind fun id _ => ?_
  split
  · exact .error
  next e hg =>
    refine .bind fun _ hst => .bind fun created _ => .bind fun _ _ => ?_
    have hst : e.state = .pending := by simpa using refuseIf_eq_ok.mp hst
    have hne : e.state ≠ .dlq := by simp [hst]
    cases outcome with
    | delivered => exact .ok (.deliver hg hst)
    | dead reason => exact dead_changes hspec hg hne
    | retry reason retryAfterMs =>
      split_ifs
      · exact dead_changes hspec hg hne
      · refine .ok ?_
        simp only [setEntry, modify_eq_insert hg]
        exact .delay hg (asI64_satAdd hnow (max_le (backoff_le _) (min_le_right _ _)))

theorem commandEntry_changes {request : Command} : (s.commandEntry spec request now).Ensures fun (id, s') =>
    Changes spec s.totals s.entries (if request.action = "replay" then [.replayed id] else [])
      s'.totals s'.entries := by
  unfold commandEntry
  split
  · exact .error
  refine .bind fun id _ => ?_
  split
  · exact .error
  next e hg =>
    refine .bind fun _ hst => ?_
    have hst : e.state = .dlq := by simpa using (not_or.mp (refuseIf_eq_ok.mp hst)).1
    split_ifs with ha
    · refine .bind fun _ _ => .bind fun _ hc => .ok ?_
      have hti : 0 ≤ asI64 now := by rw [asI64_of_lt (by omega)]; omega
      simp only [setEntry, addAudit, count, modify_eq_insert hg]
      exact .replay hg hst hti (capacity_ok hspec hc)
    · exact .ok (.purge hg hst)

omit hnow in
/-- **Every call** changes the database in one of these ways. -/
theorem step_changes {call : Call} (hnow : call.now + spec.retryMaxMs < 2 ^ 63) :
    Changes spec s.totals s.entries (step spec hash s call).1 (step spec hash s call).2.totals
      (step spec hash s call).2.entries := by
  cases call with
  | enqueue body now =>
    simp only [step]
    cases h : s.enqueue spec hash body now with
    | error err => exact .same
    | ok r => exact enqueue_changes hspec hnow h
  | next now grant =>
    simp only [step]
    cases h : s.next spec hash now grant with
    | error err => exact .same
    | ok r =>
      obtain ⟨_ | request, s'⟩ := r
      · exact next_changes hspec hnow h
      · exact next_changes hspec hnow h
  | settle key attempt outcome now =>
    simp only [step]
    cases h : s.settle spec key attempt outcome now with
    | error err => exact .same
    | ok s' => exact settle_changes hspec hnow h
  | command request now =>
    simp only [step]
    cases h : s.command spec request now with
    | error err => exact .same
    | ok r =>
      replace h := after_check (after_check h)
      split_ifs at h
      · replace h := after_check h
        cases h
        exact .pause _
      · obtain ⟨⟨id, s'⟩, he, h⟩ := bind_eq_ok.mp h
        cases h
        exact commandEntry_changes hspec hnow he
  | rolledBack | reopen => exact .same

end Steps

/-! ### What is stored -/

/-- A stored entry is within the limits of one. -/
structure Kept (spec : OutboxSpec) (nextId id : ℤ) (e : Entry) : Prop where
  id : 0 < id ∧ id < nextId
  body : e.body.length ≤ spec.maxRecordBytes
  times : 0 ≤ e.createdMs ∧ 0 ≤ e.nextMs
  attempts : e.attempts ≤ spec.maxAttempts

/-- The counters balance, and what is stored is within the limits. -/
structure Sound (spec : OutboxSpec) (m : Meta) (es : SortedMap ℤ Entry) : Prop where
  nextId : 0 < m.nextId
  kept : ∀ id e, es.get? id = some e → Kept spec m.nextId id e
  accepted : m.accepted = m.delivered + m.purged + es.size
  dead : m.dead = m.replayed + m.purged + weight es (inCount .dlq)
  pools : ∀ pool ∈ [EntryState.pending, .dlq],
    weight es (inCount pool) ≤ (caps spec pool).1 ∧ weight es (inBytes pool) ≤ (caps spec pool).2

theorem Sound.new (spec : OutboxSpec) (uuid : String) :
    Sound spec (Store.new uuid).totals (Store.new uuid).entries where
  nextId := Int.one_pos
  kept := by simp [Store.new]
  accepted := rfl
  dead := rfl
  pools := by simp [Store.new, weight]

section Laws

variable {spec : OutboxSpec} {m m' : Meta} {es' : SortedMap ℤ Entry} {events : List Event}
  {P : ℤ → Entry → Prop}

theorem forall_insert (h : ∀ id e, es.get? id = some e → P id e) (he : P id e') :
    ∀ id₁ e₁, (es.insert id e').get? id₁ = some e₁ → P id₁ e₁ := by
  intro id₁ e₁ hg
  obtain ⟨heq, rfl⟩ | ⟨-, hg⟩ := get?_insert_eq_some.mp hg
  · exact heq ▸ he
  · exact h id₁ e₁ hg

theorem forall_erase (h : ∀ id e, es.get? id = some e → P id e) :
    ∀ id₁ e₁, (es.erase id).get? id₁ = some e₁ → P id₁ e₁ := by
  intro id₁ e₁ hg
  exact h id₁ e₁ (get?_erase_eq_some.mp hg).2

theorem Sound.put (hs : Sound spec m es) (hg : es.get? id = some e) (hn : m'.nextId = m.nextId)
    (hk : Kept spec m.nextId id e') (ha : m'.accepted = m.accepted)
    (hdo : m'.delivered + m'.purged = m.delivered + m.purged)
    (hd : m'.dead + (m.replayed + m.purged) + inCount .dlq e =
      m.dead + (m'.replayed + m'.purged) + inCount .dlq e')
    (hpo : ∀ pool ∈ [EntryState.pending, .dlq], inPool pool e' →
      inPool pool e ∨ Room spec es pool e'.body.length)
    (hb : e'.body = e.body) : Sound spec m' (es.insert id e') where
  nextId := hn ▸ hs.nextId
  kept := hn ▸ forall_insert hs.kept hk
  accepted := by
    have := hs.accepted
    rw [size_insert_of_some hg]
    omega
  dead := by
    have := hs.dead
    have := weight_insert hg e' (inCount .dlq)
    omega
  pools := by
    intro pool hp
    have hc := weight_insert hg e' (inCount pool)
    have hby := weight_insert hg e' (inBytes pool)
    have hbo := hs.pools pool hp
    have hr := hpo pool hp
    by_cases hi' : inPool pool e' <;> by_cases hin : inPool pool e <;>
      simp only [inCount, inBytes, hi', hin, hb, Room, forall_const, if_true, if_false,
        Bool.false_eq_true, false_or, true_or] at hc hby hr <;> omega

theorem Sound.remove (hs : Sound spec m es) (hg : es.get? id = some e) (hn : m'.nextId = m.nextId)
    (ha : m'.accepted = m.accepted) (hdo : m'.delivered + m'.purged = m.delivered + m.purged + 1)
    (hd : m'.dead + (m.replayed + m.purged) + inCount .dlq e = m.dead + (m'.replayed + m'.purged)) :
    Sound spec m' (es.erase id) where
  nextId := hn ▸ hs.nextId
  kept := hn ▸ forall_erase hs.kept
  accepted := by
    have := hs.accepted
    have := size_erase hg
    omega
  dead := by
    have := hs.dead
    have := weight_erase hg (inCount .dlq)
    omega
  pools := by
    intro pool hp
    have := weight_erase hg (inCount pool)
    have := weight_erase hg (inBytes pool)
    have := hs.pools pool hp
    omega

/-- **Every change** keeps the balance and the limits. -/
theorem Changes.sound (h : Changes spec m es events m' es') (hs : Sound spec m es) : Sound spec m' es' := by
  cases h with
  | pause paused => exact ⟨hs.nextId, hs.kept, hs.accepted, hs.dead, hs.pools⟩
  | @accept e hst ha hge hb hti hr =>
    have hn : es.get? m.nextId = none := by
      rw [Option.eq_none_iff_forall_ne_some]
      exact fun e hg => (hs.kept _ e hg).id.2.false
    have hpo := hs.nextId
    refine ⟨by simpa using by omega, forall_insert ?_ ⟨by simpa using hpo, hb, hti, by omega⟩, ?_, ?_, ?_⟩
    · intro id e hg
      obtain ⟨hid, hb, hti, ha⟩ := hs.kept id e hg
      exact ⟨⟨hid.1, by simpa using by omega⟩, hb, hti, ha⟩
    · have := hs.accepted
      have := size_insert_of_none hn e
      simp only
      omega
    · have := hs.dead
      simp only [weight_insert_new hn, inCount, inPool, hst]
      simpa using this
    · intro pool hp
      have := hs.pools pool hp
      rw [weight_insert_new hn, weight_insert_new hn]
      obtain rfl | rfl : pool = .pending ∨ pool = .dlq := by simpa using hp
      · unfold Room at hr
        simp only [inCount, inBytes, inPool, hst]
        simp
        omega
      · simpa [inCount, inBytes, inPool, hst] using this
  | @send id e nextMs hg hst hf hpa ha hne =>
    obtain ⟨hid, hb, hti, _⟩ := hs.kept id e hg
    exact hs.put hg rfl ⟨hid, hb, ⟨hti.1, hne⟩, ha⟩ rfl rfl rfl (fun _ _ hin => .inl hin) rfl
  | @deliver id e hg hst =>
    exact hs.remove hg rfl rfl (by simp only; omega) (by simp [inCount, inPool, hst])
  | @delay id e nextMs reason hg hne =>
    obtain ⟨hid, hb, hti, ha⟩ := hs.kept id e hg
    exact hs.put hg rfl ⟨hid, hb, ⟨hti.1, hne⟩, ha⟩ rfl rfl rfl (fun _ _ hin => .inl hin) rfl
  | @block id e reason hg hst =>
    obtain ⟨hid, hb, hti, ha⟩ := hs.kept id e hg
    refine hs.put hg rfl ⟨hid, hb, hti, ha⟩ rfl rfl (by simp [inCount, inPool, hst]) ?_ rfl
    -- what was pending or blocked stays in its pool
    intro pool hp hin
    obtain rfl | rfl : pool = .pending ∨ pool = .dlq := by simpa using hp
    · refine .inl ?_
      cases hs : e.state <;> simp_all [inPool]
    · simp [inPool] at hin
  | @die id e reason hg hst hr =>
    obtain ⟨hid, hb, hti, ha⟩ := hs.kept id e hg
    refine hs.put hg rfl ⟨hid, hb, hti, ha⟩ rfl rfl (by simp [inCount, inPool, hst]; omega) ?_ rfl
    intro pool hp hin
    obtain rfl : pool = .dlq := by simp_all [inPool]
    exact .inr hr
  | @replay id e now hg hst hnow hr =>
    obtain ⟨hid, hb, -, -⟩ := hs.kept id e hg
    refine hs.put hg rfl ⟨hid, hb, ⟨hnow, hnow⟩, Nat.zero_le _⟩ rfl rfl
      (by simp [inCount, inPool, hst]; omega) ?_ rfl
    intro pool hp hin
    obtain rfl : pool = .pending := by simp_all [inPool]
    exact .inr hr
  | @purge id e hg hst =>
    exact hs.remove hg rfl rfl (by simp only; omega) (by simp [inCount, inPool, hst]; omega)

theorem Sound.checkBounds (hs : Sound spec s.totals s.entries) : s.checkBounds spec = .ok () := by
  refine bind_eq_ok.mpr ⟨(), ?_, ?_⟩
  · refine Result.forM_eq_ok.mpr fun pool hpo => refuseIf_eq_ok.mpr ?_
    have hp := hs.pools pool hpo
    have hc := congrArg Prod.fst (poolTotals_eq s pool)
    have hb := congrArg Prod.snd (poolTotals_eq s pool)
    exact not_or.mpr ⟨not_lt.mpr (hc.trans_le hp.1), not_lt.mpr (hb.trans_le hp.2)⟩
  · refine refuseIf_eq_ok.mpr ?_
    rw [Bool.not_eq_true, any_eq_false]
    intro row hr
    obtain ⟨hid, hbo, hti, -⟩ := hs.kept _ _ (mem_entries_iff.mp hr)
    simp only [decide_eq_true_eq]
    omega

/-! ### What was sent -/

/-- What was seen since an entry was last sent again. -/
def sinceReplay (id : ℤ) (trace : List Event) : List Event :=
  trace.foldl (fun seen event => if event = .replayed id then [] else seen ++ [event]) []

def attemptsOf (id : ℤ) (seen : List Event) : List ℕ :=
  seen.filterMap fun
    | .sent id' attempt => if id' = id then some attempt else none
    | _ => none

/-- The entries that were accepted, in order. -/
def acceptedIds (trace : List Event) : List ℤ :=
  trace.filterMap fun
    | .accepted id => some id
    | _ => none

@[simp] theorem sinceReplay_nil (id : ℤ) : sinceReplay id [] = [] := rfl

@[simp] theorem sinceReplay_concat (id : ℤ) (trace : List Event) (event : Event) :
    sinceReplay id (trace ++ [event]) = if event = .replayed id then [] else sinceReplay id trace ++
      [event] := by
  simp [sinceReplay, foldl_append]

theorem mem_of_mem_sinceReplay (h : event ∈ sinceReplay id trace) : event ∈ trace := by
  induction trace using List.reverseRecOn with
  | nil => exact h
  | append_singleton trace last ih =>
    rw [sinceReplay_concat] at h
    split_ifs at h
    · simp at h
    · simp only [mem_append, mem_singleton] at h ⊢
      exact h.imp_left ih

/-- The attempts since an entry was last sent again. -/
def attemptsSince (id : ℤ) (trace : List Event) : List ℕ := attemptsOf id (sinceReplay id trace)

@[simp] theorem attemptsSince_accepted (id id' : ℤ) (trace : List Event) :
    attemptsSince id (trace ++ [.accepted id']) = attemptsSince id trace := by
  simp [attemptsSince, attemptsOf]

@[simp] theorem attemptsSince_sent (id id' : ℤ) (trace : List Event) (attempt : ℕ) :
    attemptsSince id (trace ++ [.sent id' attempt]) =
      if id' = id then attemptsSince id trace ++ [attempt] else attemptsSince id trace := by
  by_cases h : id' = id <;> simp [attemptsSince, attemptsOf, h]

@[simp] theorem attemptsSince_replayed (id id' : ℤ) (trace : List Event) :
    attemptsSince id (trace ++ [.replayed id']) = if id' = id then [] else attemptsSince id trace := by
  by_cases h : id' = id <;> simp [attemptsSince, attemptsOf, h]

theorem attemptsSince_eq_nil (h : ∀ attempt, .sent id attempt ∉ trace) : attemptsSince id trace = [] := by
  refine List.filterMap_eq_nil_iff.mpr fun event hm => ?_
  cases event with
  | sent id' attempt =>
    refine if_neg ?_
    rintro rfl
    exact h attempt (mem_of_mem_sinceReplay hm)
  | accepted | replayed => rfl

/-- The attempts of what is stored are numbered since it was last sent again. -/
structure Numbered (trace : List Event) (nextId : ℤ) (es : SortedMap ℤ Entry) : Prop where
  known : ∀ id e, es.get? id = some e → id < nextId
  fresh : ∀ id, (.accepted id ∈ trace ∨ ∃ attempt, .sent id attempt ∈ trace) → id < nextId
  stored : ∀ id e, es.get? id = some e → attemptsSince id trace = List.range' 1 e.attempts

namespace Numbered

variable {nextId : ℤ} (h : Numbered trace nextId es)

include h

theorem put (hg : es.get? id = some e) (ha : e'.attempts = e.attempts) :
    Numbered trace nextId (es.insert id e') where
  known := forall_insert h.known (h.known id e hg)
  fresh := h.fresh
  stored := forall_insert h.stored (ha ▸ h.stored id e hg)

theorem remove : Numbered trace nextId (es.erase id) := ⟨forall_erase h.known, h.fresh, forall_erase h.stored⟩

theorem accept (ha : e.attempts = 0) :
    Numbered (trace ++ [.accepted nextId]) (nextId + 1) (es.insert nextId e) where
  known := forall_insert (fun id e hg => (h.known id e hg).trans (lt_add_one _)) (lt_add_one _)
  fresh := by
    intro id hid
    have := h.fresh id
    grind
  stored := by
    simp only [attemptsSince_accepted]
    refine forall_insert h.stored ?_
    rw [ha]
    exact attemptsSince_eq_nil fun attempt hm => (h.fresh nextId (.inr ⟨attempt, hm⟩)).false

theorem attemptsSince_concat (hg : es.get? id = some e) :
    attemptsSince id trace ++ [e.attempts + 1] = List.range' 1 (e.attempts + 1) := by
  rw [h.stored id e hg, range'_concat, add_comm, one_mul]

theorem send (hg : es.get? id = some e) (ha : e'.attempts = e.attempts + 1) :
    Numbered (trace ++ [.sent id (e.attempts + 1)]) nextId (es.insert id e') where
  known := forall_insert h.known (h.known id e hg)
  fresh := by
    intro id' hid
    have := h.fresh id'
    have := h.known id e hg
    grind
  stored := by
    intro id' e'' hg'
    obtain ⟨heq, rfl⟩ | ⟨heq, hg'⟩ := get?_insert_eq_some.mp hg'
    · rw [attemptsSince_sent, if_pos heq.symm, heq, ha]
      exact h.attemptsSince_concat hg
    · rw [attemptsSince_sent, if_neg (Ne.symm heq)]
      exact h.stored id' e'' hg'

theorem replay (hg : es.get? id = some e) (ha : e'.attempts = 0) :
    Numbered (trace ++ [.replayed id]) nextId (es.insert id e') where
  known := forall_insert h.known (h.known id e hg)
  fresh := by simpa using h.fresh
  stored := by
    intro id' e'' hg'
    obtain ⟨heq, rfl⟩ | ⟨heq, hg'⟩ := get?_insert_eq_some.mp hg'
    · rw [attemptsSince_replayed, if_pos heq.symm, ha]
      rfl
    · rw [attemptsSince_replayed, if_neg (Ne.symm heq)]
      exact h.stored id' e'' hg'

end Numbered

/-- No later entry was sent since this one was last sent again. -/
def Leads (id : ℤ) (trace : List Event) : Prop :=
  ∀ id' attempt, .sent id' attempt ∈ sinceReplay id trace → id' ≤ id

/-- What was seen agrees with what is stored. -/
structure Traced (spec : OutboxSpec) (trace : List Event) (m : Meta) (es : SortedMap ℤ Entry) : Prop where
  fresh : ∀ id, (.accepted id ∈ trace ∨ ∃ attempt, .sent id attempt ∈ trace) → id < m.nextId
  increasing : (acceptedIds trace).Pairwise (· < ·)
  stored : ∀ id e, es.get? id = some e → attemptsSince id trace = List.range' 1 e.attempts
  numbered : ∀ id, ∃ n ≤ spec.maxAttempts, attemptsSince id trace = List.range' 1 n
  leads : ∀ id e, es.get? id = some e → e.state ≠ .dlq → Leads id trace
  inOrder : ∀ before id attempt, before ++ [.sent id attempt] <+: trace → Leads id before

theorem Traced.new (spec : OutboxSpec) (uuid : String) :
    Traced spec [] (Store.new uuid).totals (Store.new uuid).entries where
  fresh := by simp
  increasing := .nil
  stored := by simp [Store.new]
  numbered := fun _ => ⟨0, Nat.zero_le _, rfl⟩
  leads := by simp [Store.new]
  inOrder := by simp

theorem Traced.numbered_of (ht : Traced spec trace m es) (hs : Sound spec m es) :
    Numbered trace m.nextId es :=
  ⟨fun id e hg => (hs.kept id e hg).id.2, ht.fresh, ht.stored⟩

theorem inOrder_concat (h : ∀ before id attempt, before ++ [.sent id attempt] <+: trace → Leads id before)
    (he : ∀ id attempt, event = .sent id attempt → Leads id trace) :
    ∀ before id attempt, before ++ [.sent id attempt] <+: trace ++ [event] → Leads id before := by
  intro before id attempt hp
  obtain heq | hp := List.prefix_concat_iff.mp hp
  · obtain ⟨rfl, hl⟩ := append_inj' heq rfl
    exact he id attempt (List.singleton_inj.mp hl).symm
  · exact h before id attempt hp

theorem Traced.put (ht : Traced spec trace m es) (hg : es.get? id = some e) (hn : m'.nextId = m.nextId)
    (ha : e'.attempts = e.attempts) (hst : e'.state ≠ .dlq → e.state ≠ .dlq) :
    Traced spec trace m' (es.insert id e') where
  fresh := hn ▸ ht.fresh
  increasing := ht.increasing
  stored := forall_insert ht.stored (ha ▸ ht.stored id e hg)
  numbered := ht.numbered
  leads := forall_insert ht.leads fun h => ht.leads id e hg (hst h)
  inOrder := ht.inOrder

theorem Traced.remove (ht : Traced spec trace m es) (hn : m'.nextId = m.nextId) :
    Traced spec trace m' (es.erase id) where
  fresh := hn ▸ ht.fresh
  increasing := ht.increasing
  stored := forall_erase ht.stored
  numbered := ht.numbered
  leads := forall_erase ht.leads
  inOrder := ht.inOrder

theorem Leads.concat (h : Leads id trace) (he : ∀ id' attempt, event = .sent id' attempt → id' ≤ id) :
    Leads id (trace ++ [event]) := by
  intro id' attempt hm
  rw [sinceReplay_concat] at hm
  split_ifs at hm
  · simp at hm
  · simp only [mem_append, mem_singleton] at hm
    exact hm.elim (h id' attempt) fun heq => he id' attempt heq.symm

section

variable (ht : Traced spec trace m es) (hs : Sound spec m es)

include ht hs

theorem Traced.accept (ha : e.attempts = 0) :
    Traced spec (trace ++ [.accepted m.nextId]) { m with nextId := m.nextId + 1, accepted := m.accepted + 1 }
      (es.insert m.nextId e) where
  fresh := ((ht.numbered_of hs).accept ha).fresh
  increasing := by
    simp only [acceptedIds, filterMap_append, filterMap_cons, filterMap_nil]
    refine pairwise_concat.mpr ⟨ht.increasing, fun id hid => ?_⟩
    obtain ⟨event, hm, he⟩ := List.mem_filterMap.mp hid
    cases event <;> simp only [Option.some.injEq, reduceCtorEq] at he
    exact ht.fresh id (.inl (he ▸ hm))
  stored := ((ht.numbered_of hs).accept ha).stored
  numbered := by simpa using ht.numbered
  leads := by
    refine forall_insert (fun id e hg hst => (ht.leads id e hg hst).concat (by simp)) fun _ => ?_
    refine Leads.concat (fun id' attempt hm => ?_) (by simp)
    exact (ht.fresh id' (.inr ⟨attempt, mem_of_mem_sinceReplay hm⟩)).le
  inOrder := inOrder_concat ht.inOrder (by simp)

theorem Traced.send (hg : es.get? id = some e)
    (hst : e.state = .pending) (hf : First es id) (ha : e.attempts < spec.maxAttempts) {nextMs : ℤ} :
    Traced spec (trace ++ [.sent id (e.attempts + 1)]) m
      (es.insert id { e with attempts := e.attempts + 1, nextMs }) := by
  have hn := ht.numbered_of hs
  have hse : Numbered _ _ (es.insert id { e with attempts := e.attempts + 1, nextMs }) := hn.send hg rfl
  have hl : Leads id trace := ht.leads id e hg (by simp [hst])
  refine ⟨hse.fresh, ?_, hse.stored, ?_, ?_, inOrder_concat ht.inOrder (by simpa using hl)⟩
  · simpa [acceptedIds] using ht.increasing
  · intro id'
    rw [attemptsSince_sent]
    split_ifs with heq
    · exact ⟨e.attempts + 1, ha, heq ▸ hn.attemptsSince_concat hg⟩
    · exact ht.numbered id'
  · refine forall_insert (fun id' e' hg' hs' => ?_) fun _ => ?_
    -- the first in the queue is before the others
    · refine (ht.leads id' e' hg' hs').concat fun id'' attempt heq => ?_
      obtain ⟨rfl, -⟩ := Event.sent.inj heq
      exact hf id' e' hg' hs'
    · refine hl.concat fun id'' attempt heq => ?_
      obtain ⟨rfl, -⟩ := Event.sent.inj heq
      exact le_rfl

theorem Traced.replay (hg : es.get? id = some e) (ha : e'.attempts = 0) (hne : m'.nextId = m.nextId) :
    Traced spec (trace ++ [.replayed id]) m' (es.insert id e') := by
  have hn := (ht.numbered_of hs).replay hg ha
  refine ⟨hne ▸ hn.fresh, ?_, hn.stored, ?_, ?_, inOrder_concat ht.inOrder (by simp)⟩
  · simpa [acceptedIds] using ht.increasing
  · intro id'
    rw [attemptsSince_replayed]
    split_ifs with heq
    · exact ⟨0, Nat.zero_le _, rfl⟩
    · exact ht.numbered id'
  · refine forall_insert (fun id' e' hg' hs' => (ht.leads id' e' hg' hs').concat (by simp)) fun _ => ?_
    intro id' attempt hm
    simp at hm

end

/-- **Every change** keeps the order and the numbers of the attempts. -/
theorem Changes.traced (h : Changes spec m es events m' es') (hs : Sound spec m es)
    (ht : Traced spec trace m es) :
    Traced spec (trace ++ events) m' es' := by
  cases h with
  | pause paused =>
    rw [append_nil]
    exact ⟨ht.fresh, ht.increasing, ht.stored, ht.numbered, ht.leads, ht.inOrder⟩
  | accept hst ha => exact ht.accept hs ha
  | send hg hst hf hp ha => exact ht.send hs hg hst hf ha
  | deliver hg | purge hg =>
    rw [append_nil]
    exact ht.remove rfl
  | delay hg =>
    rw [append_nil]
    exact ht.put hg rfl rfl id
  | block hg hst =>
    rw [append_nil]
    exact ht.put hg rfl rfl fun _ => hst
  | die hg hst =>
    rw [append_nil]
    exact ht.put hg rfl rfl fun _ => hst
  | replay hg => exact ht.replay hs hg rfl rfl

end Laws

/-! ### Every run -/

/-- What holds after a run of which `trace` was seen. -/
structure Conserved (spec : OutboxSpec) (hash : Bytes → String) (trace : List Event) (s : Store) : Prop where
  accepted : s.totals.accepted = s.totals.delivered + s.totals.purged + s.entries.size
  dead : s.totals.dead = s.totals.replayed + s.totals.purged + (s.poolTotals .dlq).1
  /-- The pools are within their limits: the pending and blocked, and the dead letters. -/
  pools : ∀ pool ∈ [EntryState.pending, .dlq],
    (s.poolTotals pool).1 ≤ (caps spec pool).1 ∧ (s.poolTotals pool).2 ≤ (caps spec pool).2
  reopens : s.checkBounds spec = .ok ()
  /-- `next` returns the first entry that is no dead letter, a pending one, and nothing while paused. -/
  first : ∀ now grant request s', s.next spec hash now grant = .ok (some request, s') →
    s.totals.paused = false ∧ ∃ e, s.entries.get? request.id = some e ∧ e.state = .pending ∧
      request.body = e.body ∧
      ∀ id' e', s.entries.get? id' = some e' → e'.state ≠ .dlq → request.id ≤ id'
  increasing : (acceptedIds trace).Pairwise (· < ·)
  /-- An entry is not sent after a later one, but for one that was sent again since. -/
  inOrder : ∀ before id attempt, before ++ [.sent id attempt] <+: trace →
    ∀ id' attempt', .sent id' attempt' ∈ sinceReplay id before → id' ≤ id
  /-- Since an entry was last sent again its attempts are numbered from one, and within the budget. -/
  numbered : ∀ id, ∃ n ≤ spec.maxAttempts, attemptsSince id trace = List.range' 1 n

/-- **Every run** keeps the balance, the limits and the order. -/
theorem run_laws (hspec : spec.validate = .ok ()) (hash : Bytes → String) (uuid : String)
    {calls : List Call} (hcl : ∀ call ∈ calls, call.now + spec.retryMaxMs < 2 ^ 63) :
    Sound spec (run spec hash uuid calls).2.totals (run spec hash uuid calls).2.entries ∧
      Traced spec (run spec hash uuid calls).1 (run spec hash uuid calls).2.totals
        (run spec hash uuid calls).2.entries := by
  refine Machine.run_induction (I := fun trace (s : Store) =>
    Sound spec s.totals s.entries ∧ Traced spec trace s.totals s.entries)
    (fun trace s call hnow hI => ?_) ⟨Sound.new spec uuid, Traced.new spec uuid⟩
      (Machine.along_of_forall hcl _)
  have hc : Changes spec s.totals s.entries (step spec hash s call).1 _ _ := step_changes hspec hnow
  exact ⟨hc.sound hI.1, hc.traced hI.1 hI.2⟩

/-- **No accepted record is lost, and the budgets hold**, in every run whose clock readings leave room for the
longest wait. -/
theorem outbox_conserves {spec : OutboxSpec} (hspec : spec.validate = .ok ())
    (hash : Bytes → String) (uuid : String)
    {calls : List Call} (hclock : ∀ call ∈ calls, call.now + spec.retryMaxMs < 2 ^ 63) :
    Conserved spec hash (run spec hash uuid calls).1 (run spec hash uuid calls).2 := by
  obtain ⟨hs, ht⟩ := run_laws hspec hash uuid hclock
  refine ⟨hs.accepted, ?_, ?_, hs.checkBounds, ?_, ht.increasing, ht.inOrder, ht.numbered⟩
  · rw [poolTotals_eq]
    exact hs.dead
  · intro pool hpo
    rw [poolTotals_eq]
    exact hs.pools pool hpo
  · intro now grant request s' hn
    obtain ⟨hno, -⟩ | ⟨id, e, hg, hst, hf, hp, -, hr, -⟩ := next_ok hn
    · cases hno
    · cases hr
      exact ⟨hp, e, hg, hst, rfl, hf⟩

/-! ### An entry that expires before it is sent -/

def secondSpec : OutboxSpec :=
  { maxDiskBytes := 8388608, maxPendingBytes := 1000, maxDlqBytes := 1000, maxPendingEntries := 10, maxDlqEntries := 10
    maxRecordBytes := 100, maxAttempts := 3, maxRetryElapsedMs := 1000, retryBaseMs := 25, retryMaxMs := 100 }

/-- Two requests, the first of which is a second old when the sender comes to it; it is sent again after the second. -/
def expiring : List Call :=
  [.enqueue [1] 0, .enqueue [2] 900, .next 1000 (.ok ()), .next 1000 (.ok ()),
    .command { action := "replay", approveUuid := "u", reason := "r", id := some "u-1", replayGeneration := some 0 } 1000,
    .next 1000 (.ok ())]

theorem sent_after_replay : secondSpec.validate = .ok () ∧
      (run secondSpec (fun _ => "") "u" expiring).1 =
        [.accepted 1, .accepted 2, .sent 2 1, .replayed 1, .sent 1 1] := by
  decide

theorem outbox_conserves_expiring :
    Conserved secondSpec (fun _ => "") (run secondSpec (fun _ => "") "u" expiring).1
      (run secondSpec (fun _ => "") "u" expiring).2 :=
  outbox_conserves (by decide) (fun _ => "") "u" (by decide)

end Store

end Sparrow.Control
