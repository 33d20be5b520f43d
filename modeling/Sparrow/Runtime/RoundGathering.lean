import Sparrow.Library.Schedule
import Sparrow.Runtime.JoinExecutor

/-!
# Gathering a round

The union and the join of a durable graph read their ports in whatever order messages
arrive, and count rows, bytes and items over all ports as they go. Here is what they
have in common: `Round` is what is gathered of a round, `Effect` what one envelope adds to
it and `Round.Takes` when it may be added.

## What is proved

* `Round.Takes.of_take`, `Round.Takes.take`, `Round.take_comm` — of two ports that can be
  read, it does not matter which one is read first: neither for whether the envelopes are
  taken nor for what is gathered.
-/

namespace Sparrow.Runtime

open Library Model Function

theorem guards_refuseIf {β α : Type} {p P : Prop} [Decidable p] (h : ¬ p ↔ P) (e : SparrowError)
    (f : Unit → Emits β SparrowError α) : (Emits.lift (refuseIf p e) >>= f).Guards P (f ()) :=
  .lift_bind (fun _ => refuseIf_eq_ok.trans (h.trans (and_iff_left rfl).symm)) f

/-! ### A round, gathered -/

/-- What a control asks for. -/
inductive Signal where
  | quiet
  | time (micros : ℤ)
  | progress (p : Progress)
  | roundEnd (sequence : ℕ)
  | barrier (checkpoint : ℕ)
  | stale
  | refused

/-- What an envelope brings. -/
structure Effect where
  batch : Option InputBatch
  signal : Signal

namespace Effect

def signalOf (active : Bool) : Option StreamControl → Signal
  | none => .quiet
  | some (.processingTime micros) => .time micros
  | some (.graphProgress watermarkMicros flags) =>
    match Progress.fromControl watermarkMicros flags with
    | .ok p => .progress p
    | .error _ => .refused
  | some (.graphRoundEnd sequence) => .roundEnd sequence
  | some (.checkpointBarrier checkpoint) => if active then .barrier checkpoint else .stale
  | some .legacy => .refused

def item (e : Effect) : Option Item :=
  match e.signal with
  | .progress p => some (.progress p)
  | .stale => none
  | _ => e.batch.map fun batch => .data batch.rows

def InRound (e : Effect) : Prop := e.batch.isSome ∨ (∃ p, e.signal = .progress p) ∨ ∃ k, e.signal = .roundEnd k

theorem inRound_of_item {e : Effect} (h : e.item.isSome) : e.InRound := by
  obtain ⟨batch, signal⟩ := e
  cases signal <;> simp_all [item, InRound]

end Effect

structure Round (ι : Type) where
  times : ι → Option ℤ
  done : ι → Bool
  barriers : ι → Option ℕ
  buffers : ι → List Item
  count : ℕ
  rows : ℕ
  bytes : ℕ

/-- What a round is held against. -/
structure RoundRules where
  previousTime : ℤ
  sequence : ℕ
  add : ℕ → ℕ → ℕ
  fits : ℕ → ℕ → Prop
  room : ℕ → Prop
  add_right_comm : ∀ a b c, add (add a b) c = add (add a c) b
  fits_of_add : ∀ {a b a' b' c c'}, fits (add (add a b) c) (add (add a' b') c') → fits (add a b) (add a' b')

namespace Round

variable {ι : Type}

/-- An envelope of port `p` may be added. -/
structure Takes (R : RoundRules) (r : Round ι) (p : ι) (e : Effect) : Prop where
  known : e.signal ≠ .refused
  begun : e.InRound → (r.times p).isSome
  unbarred : (e.batch.isSome ∨ ∃ m, e.signal = .time m) → ∀ i, r.barriers i = none
  starts : ∀ m, e.signal = .time m → r.times p = none ∧ R.previousTime ≤ m ∧ ∀ i v, r.times i = some v → v = m
  ends : ∀ k, e.signal = .roundEnd k → k = R.sequence
  aligned : ∀ c, e.signal = .barrier c → (∀ i, r.times i = none) ∧ r.count = 0 ∧ ∀ i c', r.barriers i = some c' → c' = c
  fits : ∀ b, e.batch = some b → R.fits (R.add r.rows b.rows.length) (R.add r.bytes b.leased)
  room : e.item.isSome → R.room (r.count + 1)

variable [DecidableEq ι]

def take (R : RoundRules) (r : Round ι) (p : ι) (e : Effect) : Round ι where
  times := match e.signal with
    | .time m => update r.times p (some m)
    | _ => r.times
  done := match e.signal with
    | .roundEnd _ => update r.done p true
    | _ => r.done
  barriers := match e.signal with
    | .barrier c => update r.barriers p (some c)
    | _ => r.barriers
  buffers := match e.item with
    | some i => update r.buffers p (r.buffers p ++ [i])
    | none => r.buffers
  count := r.count + e.item.toList.length
  rows := match e.batch with
    | some b => R.add r.rows b.rows.length
    | none => r.rows
  bytes := match e.batch with
    | some b => R.add r.bytes b.leased
    | none => r.bytes

variable {R : RoundRules} {r : Round ι} {p q i : ι} {e e' : Effect}

/-! #### What is read of a port -/

theorem times_take_of_ne (hi : i ≠ p) : (r.take R p e).times i = r.times i := by
  unfold take
  cases e.signal <;> simp [update_of_ne hi]

theorem done_take_of_ne (hi : i ≠ p) : (r.take R p e).done i = r.done i := by
  unfold take
  cases e.signal <;> simp [update_of_ne hi]

theorem barriers_take_of_ne (hi : i ≠ p) : (r.take R p e).barriers i = r.barriers i := by
  unfold take
  cases e.signal <;> simp [update_of_ne hi]

theorem times_take_of_time {m : ℤ} (he : e.signal = .time m) : (r.take R p e).times p = some m := by
  simp [take, he]

theorem times_take_of_not (he : ∀ m, e.signal ≠ .time m) : (r.take R p e).times = r.times := by
  unfold take
  cases hs : e.signal <;> simp_all

variable {c : ℕ}

theorem barriers_take_of_barrier (he : e.signal = .barrier c) : (r.take R p e).barriers p = some c := by
  simp [take, he]

theorem barriers_take_of_not (he : ∀ c, e.signal ≠ .barrier c) : (r.take R p e).barriers = r.barriers := by
  unfold take
  cases hs : e.signal <;> simp_all

theorem Takes.times_eq_some (h : r.Takes R p e) {v : ℤ} (hv : r.times i = some v) :
    (r.take R p e).times i = some v := by
  by_cases he : ∃ m, e.signal = .time m
  · obtain ⟨m, hm⟩ := he
    have hi : i ≠ p := by
      rintro rfl
      rw [(h.starts m hm).1] at hv
      cases hv
    rw [times_take_of_ne hi, hv]
  · rw [times_take_of_not (not_exists.mp he), hv]

theorem barriers_eq_some (hp : r.barriers p = none) (hc : r.barriers i = some c) :
    (r.take R p e).barriers i = some c := by
  have hi : i ≠ p := by
    rintro rfl
    rw [hp] at hc
    cases hc
  rw [barriers_take_of_ne hi, hc]

theorem count_take_of_item (he : e.item.isSome) : (r.take R p e).count = r.count + 1 := by
  obtain ⟨i, hi⟩ := Option.isSome_iff_exists.mp he
  simp [take, hi]

theorem count_take_of_none (he : e.item = none) : (r.take R p e).count = r.count := by simp [take, he]

/-! #### Exchange -/

theorem Takes.of_take (hpq : p ≠ q) (hp : r.barriers p = none) (h : r.Takes R p e)
    (h' : (r.take R p e).Takes R q e') : r.Takes R q e' where
  known := h'.known
  begun he := times_take_of_ne (r := r) (R := R) (e := e) hpq.symm ▸ h'.begun he
  unbarred he i := by
    cases hb : r.barriers i with
    | none => rfl
    | some c => exact (barriers_eq_some hp hb).symm.trans (h'.unbarred he i)
  starts m hm := by
    obtain ⟨hn, hpr, ha⟩ := h'.starts m hm
    exact ⟨times_take_of_ne (r := r) hpq.symm ▸ hn, hpr, fun i v hv => ha i v (h.times_eq_some hv)⟩
  ends := h'.ends
  aligned c hc := by
    obtain ⟨ht, hco, ha⟩ := h'.aligned c hc
    refine ⟨fun i => ?_, by simp only [take] at hco; omega, fun i c' hc' => ha i c' (barriers_eq_some hp hc')⟩
    cases hv : r.times i with
    | none => rfl
    | some v => exact (h.times_eq_some hv).symm.trans (ht i)
  fits b hb := by
    have hf := h'.fits b hb
    cases he : e.batch with
    | none => simpa [take, he] using hf
    | some b₀ =>
      simp only [take, he] at hf
      rw [R.add_right_comm, R.add_right_comm r.bytes] at hf
      exact R.fits_of_add hf
  room he := by
    have hr := h'.room he
    cases hi : e.item with
    | none => rwa [count_take_of_none hi] at hr
    | some i => exact h.room (by simp [hi])

theorem Takes.take (hpq : p ≠ q) (h : r.Takes R p e) (h' : (r.take R p e).Takes R q e') :
    (r.take R q e').Takes R p e where
  known := h.known
  begun he := (times_take_of_ne (r := r) (R := R) (e := e') hpq).symm ▸ h.begun he
  unbarred he := by
    have hno : ∀ c, e'.signal ≠ .barrier c := fun c hc => by
      -- the barrier would have found the time of port `p`
      have hn := (h'.aligned c hc).1 p
      obtain hbat | ⟨m, hm⟩ := he
      · obtain ⟨v, hv⟩ := Option.isSome_iff_exists.mp (h.begun (.inl hbat))
        rw [h.times_eq_some hv] at hn
        cases hn
      · rw [times_take_of_time hm] at hn
        cases hn
    rw [barriers_take_of_not hno]
    exact h.unbarred he
  starts m hm := by
    obtain ⟨hn, hp, ha⟩ := h.starts m hm
    refine ⟨(times_take_of_ne hpq).trans hn, hp, fun i v hv => ?_⟩
    by_cases he' : ∃ m', e'.signal = .time m'
    · obtain ⟨m', hm'⟩ := he'
      have hmm : m = m' := (h'.starts m' hm').2.2 p m (times_take_of_time hm)
      obtain rfl | hi := eq_or_ne i q
      · rw [times_take_of_time hm'] at hv
        exact (Option.some.inj hv).symm.trans hmm.symm
      · exact ha i v (times_take_of_ne (r := r) hi ▸ hv)
    · rw [times_take_of_not (not_exists.mp he')] at hv
      exact ha i v hv
  ends := h.ends
  aligned c hc := by
    obtain ⟨ht, hco, ha⟩ := h.aligned c hc
    have hba := barriers_take_of_barrier (r := r) (R := R) (p := p) hc
    have hno : ∀ m, e'.signal ≠ .time m := fun m hm => by
      rw [h'.unbarred (.inr ⟨m, hm⟩) p] at hba
      cases hba
    have hit : e'.item = none := by
      by_contra hit
      have hbe := h'.begun (Effect.inRound_of_item (Option.isSome_iff_ne_none.mpr hit))
      rw [times_take_of_ne hpq.symm, ht q] at hbe
      cases hbe
    refine ⟨fun i => by rw [times_take_of_not hno, ht i], by rw [count_take_of_none hit, hco], fun i c' hc' => ?_⟩
    by_cases he' : ∃ c₀, e'.signal = .barrier c₀
    · obtain ⟨c₀, hc₀⟩ := he'
      have hcc : c = c₀ := (h'.aligned c₀ hc₀).2.2 p c hba
      obtain rfl | hi := eq_or_ne i q
      · rw [barriers_take_of_barrier hc₀] at hc'
        exact (Option.some.inj hc').symm.trans hcc.symm
      · exact ha i c' (barriers_take_of_ne (r := r) hi ▸ hc')
    · rw [barriers_take_of_not (not_exists.mp he')] at hc'
      exact ha i c' hc'
  fits b hb := by
    cases he' : e'.batch with
    | none => simpa [Round.take, he'] using h.fits b hb
    | some b' =>
      have hf := h'.fits b' he'
      simp only [Round.take, hb, he'] at hf ⊢
      rwa [R.add_right_comm, R.add_right_comm r.bytes] at hf
  room he := by
    cases hi : e'.item with
    | none =>
      rw [count_take_of_none hi]
      exact h.room he
    | some i =>
      have hs : e'.item.isSome := by simp [hi]
      have hr := h'.room hs
      rw [count_take_of_item he] at hr
      rwa [count_take_of_item hs]

/-- **The order of two envelopes does not matter for what is gathered.** -/
theorem take_comm (hpq : p ≠ q) : (r.take R p e).take R q e' = (r.take R q e').take R p e := by
  unfold take
  simp only [mk.injEq]
  refine ⟨?_, ?_, ?_, ?_, Nat.add_right_comm _ _ _, ?_, ?_⟩
  · cases e.signal <;> cases e'.signal <;> simp [update_comm hpq]
  · cases e.signal <;> cases e'.signal <;> simp [update_comm hpq]
  · cases e.signal <;> cases e'.signal <;> simp [update_comm hpq]
  · cases e.item <;> cases e'.item <;> simp [update_comm hpq, hpq, hpq.symm]
  · cases e.batch <;> cases e'.batch <;> simp [R.add_right_comm]
  · cases e.batch <;> cases e'.batch <;> simp [R.add_right_comm]

/-! #### As the tasks check it -/

def TakesBatch (R : RoundRules) (r : Round ι) (p : ι) (batch : Option InputBatch) : Prop :=
  ∀ b, batch = some b → (r.times p).isSome ∧ (∀ i, r.barriers i = none) ∧
    R.fits (R.add r.rows b.rows.length) (R.add r.bytes b.leased)

def TakesSignal (R : RoundRules) (r : Round ι) (p : ι) : Signal → Prop
  | .quiet => True
  | .time m => r.times p = none ∧ R.previousTime ≤ m ∧ (∀ i, r.barriers i = none) ∧ ∀ i v, r.times i = some v → v = m
  | .progress _ => (r.times p).isSome
  | .roundEnd k => k = R.sequence ∧ (r.times p).isSome
  | .barrier c => (∀ i, r.times i = none) ∧ r.count = 0 ∧ ∀ i c', r.barriers i = some c' → c' = c
  | .stale => True
  | .refused => False

omit [DecidableEq ι] in
theorem takes_iff : r.Takes R p e ↔
    r.TakesBatch R p e.batch ∧ r.TakesSignal R p e.signal ∧ (e.item.isSome → R.room (r.count + 1)) := by
  constructor
  · intro h
    refine ⟨fun b hb => ⟨h.begun (.inl (by simp [hb])), h.unbarred (.inl (by simp [hb])), h.fits b hb⟩, ?_, h.room⟩
    cases hs : e.signal with
    | quiet | stale => trivial
    | time m =>
      obtain ⟨hn, hp, ha⟩ := h.starts m hs
      exact ⟨hn, hp, h.unbarred (.inr ⟨m, hs⟩), ha⟩
    | progress p => exact h.begun (.inr (.inl ⟨p, hs⟩))
    | roundEnd k => exact ⟨h.ends k hs, h.begun (.inr (.inr ⟨k, hs⟩))⟩
    | barrier c => exact h.aligned c hs
    | refused => exact h.known hs
  · rintro ⟨hba, hsi, hr⟩
    refine ⟨?_, ?_, ?_, ?_, ?_, ?_, fun b hb => (hba b hb).2.2, hr⟩
    · intro hs
      rw [hs] at hsi
      exact hsi
    · rintro (he | ⟨p, hs⟩ | ⟨k, hs⟩)
      · obtain ⟨b, hb⟩ := Option.isSome_iff_exists.mp he
        exact (hba b hb).1
      · rw [hs] at hsi
        exact hsi
      · rw [hs] at hsi
        exact hsi.2
    · rintro (he | ⟨m, hs⟩)
      · obtain ⟨b, hb⟩ := Option.isSome_iff_exists.mp he
        exact (hba b hb).2.1
      · rw [hs] at hsi
        exact hsi.2.2.1
    · intro m hs
      rw [hs] at hsi
      exact ⟨hsi.1, hsi.2.1, hsi.2.2.2⟩
    · intro k hs
      rw [hs] at hsi
      exact hsi.1
    · intro c hs
      rw [hs] at hsi
      exact hsi

omit [DecidableEq ι] in
theorem TakesBatch.eq_none {batch : Option InputBatch} {c : ℕ} (hb : r.TakesBatch R p batch)
    (hs : r.TakesSignal R p (.barrier c)) : batch = none := by
  cases batch with
  | none => rfl
  | some b =>
    have hbe := (hb b rfl).1
    rw [hs.1 p] at hbe
    cases hbe

theorem TakesSignal.barriers_agree {c' : ℕ} (hs : r.TakesSignal R p (.barrier c))
    (hi : update r.barriers p (some c) i = some c') : c' = c := by
  obtain rfl | hne := eq_or_ne i p
  · rw [update_self] at hi
    exact (Option.some.inj hi).symm
  · rw [update_of_ne hne] at hi
    exact hs.2.2 i c' hi

end Round

/-! ### Tasks that gather rounds -/

structure Gathering (ι σ : Type) where
  round : σ → Round ι
  put : σ → Round ι → σ
  rules : σ → RoundRules
  round_put : ∀ s r, round (put s r) = r
  put_put : ∀ s r r', put (put s r) r' = put s r'
  rules_put : ∀ s r, rules (put s r) = rules s

namespace Gathering

variable {ι σ : Type} [DecidableEq ι] (K : Gathering ι σ) {s : σ} {p q : ι} {e e' : Effect}

def Ready (s : σ) (p : ι) : Prop := (K.round s).done p = false ∧ (K.round s).barriers p = none

open Classical in
/-- An envelope is added to the round or refused. -/
noncomputable def collect (s : σ) (p : ι) (e : Effect) : Option σ :=
  if (K.round s).Takes (K.rules s) p e then some (K.put s ((K.round s).take (K.rules s) p e)) else none

variable {K} {s' : σ}

theorem collect_eq_some : K.collect s p e = some s' ↔
    (K.round s).Takes (K.rules s) p e ∧ K.put s ((K.round s).take (K.rules s) p e) = s' := by
  simp [collect]

theorem collect_eq_none : K.collect s p e = none ↔ ¬ (K.round s).Takes (K.rules s) p e := by
  simp [collect]

theorem Ready.collect (hpq : p ≠ q) (hq : K.Ready s q) (hs : K.collect s p e = some s') : K.Ready s' q := by
  obtain ⟨-, rfl⟩ := collect_eq_some.mp hs
  refine ⟨?_, ?_⟩
  · rw [K.round_put, Round.done_take_of_ne hpq.symm, hq.1]
  · rw [K.round_put, Round.barriers_take_of_ne hpq.symm, hq.2]

theorem bind_collect_eq_some : (K.collect s p e).bind (fun s' => K.collect s' q e') = some s' ↔
    (K.round s).Takes (K.rules s) p e ∧ ((K.round s).take (K.rules s) p e).Takes (K.rules s) q e' ∧
      K.put s (((K.round s).take (K.rules s) p e).take (K.rules s) q e') = s' := by
  simp only [Option.bind_eq_some_iff, collect_eq_some]
  constructor
  · rintro ⟨s₁, ⟨hp, rfl⟩, hq, rfl⟩
    rw [K.round_put, K.rules_put] at hq
    exact ⟨hp, hq, by rw [K.round_put, K.rules_put, K.put_put]⟩
  · rintro ⟨hp, hq, rfl⟩
    refine ⟨_, ⟨hp, rfl⟩, ?_, ?_⟩
    · rwa [K.round_put, K.rules_put]
    · rw [K.round_put, K.rules_put, K.put_put]

theorem collect_collect (hpq : p ≠ q) (hp : K.Ready s p)
    (h : (K.collect s p e).bind (fun s' => K.collect s' q e') = some s') :
    (K.collect s q e').bind (fun s' => K.collect s' p e) = some s' := by
  obtain ⟨hf, hs, rfl⟩ := bind_collect_eq_some.mp h
  exact bind_collect_eq_some.mpr
    ⟨hf.of_take hpq hp.2 hs, hf.take hpq hs, by rw [Round.take_comm hpq.symm]⟩

/-- **Envelopes of two ports can be exchanged.** -/
theorem collect_comm (hpq : p ≠ q) (hp : K.Ready s p) (hq : K.Ready s q) :
    (K.collect s p e).bind (fun s' => K.collect s' q e') = (K.collect s q e').bind fun s' => K.collect s' p e :=
  Option.ext fun _ => ⟨collect_collect hpq hp, collect_collect hpq.symm hq⟩

end Gathering

/-- What a port delivers: an envelope, or `none` if it has closed, and whether the checkpoint of a
barrier is still wanted when it is read. -/
structure PortMessage where
  envelope : Option Envelope
  active : Bool

def PortMessage.effect (a : PortMessage) : Effect :=
  match a.envelope with
  | none => { batch := none, signal := .refused }
  | some env => { batch := env.batch, signal := Effect.signalOf a.active env.control }

end Sparrow.Runtime
