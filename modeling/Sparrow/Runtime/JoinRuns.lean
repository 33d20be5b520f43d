import Sparrow.Library.Machine
import Sparrow.Runtime.JoinExecutor

/-!
# Invariants of the join executor

The executor collects a round and only then changes the operator, item by item. So an
invariant of the operator, its progress and the log holds along a run if every item keeps
it; what the task itself keeps between items (`Collected`) is the same for all of them.
-/

namespace Sparrow.Runtime

open Library Model Plan Option Emits

/-- An event that marks the course of the rounds and says nothing about rows. -/
inductive JoinEvent.IsBoundary : JoinEvent → Prop where
  | processingTime (micros : ℤ) : IsBoundary (.processingTime micros)
  | roundEnd (sequence : ℕ) : IsBoundary (.roundEnd sequence)
  | frozen (checkpoint : ℕ) (freeze : Result Bytes) : IsBoundary (.frozen checkpoint freeze)
  | barrier (checkpoint : ℕ) : IsBoundary (.barrier checkpoint)

def Delivery.Brings (G : Side → Item → Prop) (d : Delivery) : Prop :=
  ∀ env, d.envelope = some env → (∀ batch, env.batch = some batch → G d.side (.data batch.rows)) ∧
      ∀ wm flags p, env.control = some (.graphProgress wm flags) → Progress.fromControl wm flags = .ok p →
        G d.side (.progress p)

namespace JoinTask

variable {ctx : JobCtx} {around : Surroundings} {log : List JoinEvent} {t t' : JoinTask} {side : Side}
  {P : List JoinEvent → Prop} {I : List JoinEvent → JoinState → Prop} {G : Side → Item → Prop}

structure Collected (G : Side → Item → Prop) (t : JoinTask) : Prop where
  items : ∀ side, ∀ i ∈ t.buffers side, G side i
  done : ∀ side, t.done side = true → (t.times side).isSome = true
  between : t.begun = false → t.count = 0 ∧ t.rows = 0 ∧ t.bytes = 0 ∧ ∀ side, t.buffers side = []
  sequence : 0 < t.sequence ∧ t.sequence ≤ usizeMax

theorem begun_of_isSome (side : Side) (h : (t.times side).isSome = true) : t.begun = true := by
  cases side <;> simp [begun, h]

theorem Collected.start {s : JoinState} {sequence : ℕ} {micros : ℤ} (h : start s sequence micros = .ok t) :
    t.Collected G ∧ t.toJoinState = s := by
  obtain ⟨hs, h⟩ := guard_eq_ok.mp h
  cases h
  exact ⟨⟨fun _ _ h => absurd h List.not_mem_nil, fun _ h => absurd h Bool.false_ne_true,
    fun _ => ⟨rfl, rfl, rfl, fun _ => rfl⟩, Nat.succ_pos _, not_lt.mp hs⟩, rfl⟩

/-- **Between rounds a task is one that has just started.** -/
theorem Collected.eq_start (h : t.Collected G) (hb : t.begun = false) :
    t = { startOf t.toJoinState (t.sequence - 1) t.previousTime with barriers := t.barriers } := by
  obtain ⟨hc, hr, hby, hbu⟩ := h.between hb
  have ht : ∀ side, t.times side = none := fun side => by
    simp only [begun, Bool.or_eq_false_iff, isSome_eq_false_iff, isNone_iff_eq_none] at hb
    cases side
    · exact hb.1
    · exact hb.2
  have hdo : ∀ side, t.done side = false := fun side => by
    cases hd : t.done side with
    | false => rfl
    | true => exact absurd (h.done side hd) (by simp [ht side])
  have hs : t.sequence - 1 + 1 = t.sequence := Nat.succ_pred_eq_of_pos h.sequence.1
  obtain ⟨s, sequence, previousTime, times, done, barriers, buffers, count, rows, bytes⟩ := t
  obtain rfl : times = fun _ => none := funext ht
  obtain rfl : done = fun _ => false := funext hdo
  obtain rfl : buffers = fun _ => [] := funext hbu
  subst hc hr hby
  simp only [startOf, mk.injEq, and_true, true_and]
  exact hs.symm

variable {item : Option Item}

theorem Collected.receiveBatch {batch : Option InputBatch} (h : t.Collected G)
    (hb : ∀ b, batch = some b → G side (.data b.rows)) (hr : t.receiveBatch ctx side batch = .ok (t', item)) :
    t'.Collected G ∧ t'.toJoinState = t.toJoinState ∧
      ∀ i, item = some i → G side i ∧ (t'.times side).isSome = true := by
  cases batch with
  | none =>
    cases Except.ok.inj hr
    exact ⟨h, rfl, fun _ h => by cases h⟩
  | some b =>
    obtain ⟨ht, hr⟩ := guard_eq_ok.mp hr
    replace hr := after_check hr
    cases Except.ok.inj hr
    have ht : (t.times side).isSome = true := by
      have := ht
      simp only [Bool.or_eq_true, not_or] at this
      simpa [isSome_iff_ne_none] using this.1
    have hbe := begun_of_isSome side ht
    refine ⟨⟨h.items, h.done, fun hno => absurd (hbe.symm.trans hno) (by simp), h.sequence⟩, rfl, fun i hi => ?_⟩
    cases hi
    exact ⟨hb b rfl, ht⟩

theorem Collected.buffer (h : t.Collected G)
    (hitem : ∀ i, item = some i → G side i ∧ (t.times side).isSome = true)
    (ht : t.buffer ctx around side item = .ok t') : t'.Collected G ∧ t'.toJoinState = t.toJoinState := by
  cases item with
  | none =>
    cases ht
    exact ⟨h, rfl⟩
  | some item =>
    replace ht := after_check (after_check ht)
    cases ht
    obtain ⟨hG, hti⟩ := hitem item rfl
    have hb := begun_of_isSome side hti
    refine ⟨⟨fun side' i hi => ?_, h.done, fun hno => absurd (hb.symm.trans hno) (by simp), h.sequence⟩, rfl⟩
    obtain rfl | hs := eq_or_ne side' side
    · simp only [Function.update_self] at hi
      exact forall_mem_concat.mpr ⟨h.items side', hG⟩ i hi
    · simp only [Function.update_of_ne hs] at hi
      exact h.items side' i hi

section

variable (hP : ∀ log s, I log s → P log) (hboundary : ∀ log s e, e.IsBoundary → I log s → I (log ++ [e]) s)
include hP hboundary

theorem receiveBarrier_ensures {checkpoint : ℕ} (hI : I log t.toJoinState) (h : t.Collected G) :
    Ensures log (t.receiveBarrier ctx around side checkpoint) P
      fun log t' => I log t'.toJoinState ∧ t'.Collected G ∧ t'.times = t.times := by
  refine .lift_bind (hP _ _ hI) fun _ _ => ?_
  dsimp only
  split_ifs
  · refine .emit_bind (.emit_bind ?_)
    have hf : ∀ freeze, I (log ++ [.frozen checkpoint freeze] ++ [.barrier checkpoint]) t.toJoinState :=
      fun freeze => hboundary _ _ _ (.barrier checkpoint) (hboundary _ _ _ (.frozen checkpoint freeze) hI)
    exact .pure (hP _ _ (hf _)) ⟨hf _, ⟨h.items, h.done, h.between, h.sequence⟩, rfl⟩
  · exact .pure (hP _ _ hI) ⟨hI, ⟨h.items, h.done, h.between, h.sequence⟩, rfl⟩

theorem receiveControl_ensures {control : Option StreamControl} (hI : I log t.toJoinState)
    (h : t.Collected G) (hitem : ∀ i, item = some i → G side i ∧ (t.times side).isSome = true)
    (hc : ∀ wm flags p, control = some (.graphProgress wm flags) → Progress.fromControl wm flags = .ok p →
      G side (.progress p)) :
    Ensures log (t.receiveControl ctx around side item control) P fun log r =>
      (I log r.1.toJoinState ∧ r.1.Collected G) ∧
        ∀ i, r.2 = some (some i) → G side i ∧ (r.1.times side).isSome = true := by
  have hPl := hP _ _ hI
  have hi' : ∀ i, some item = some (some i) → G side i ∧ (t.times side).isSome = true := fun i hi =>
    hitem i (some.inj hi)
  cases control with
  | none => exact .pure hPl ⟨⟨hI, h⟩, hi'⟩
  | some control =>
    cases control with
    | processingTime micros =>
      refine .lift_bind hPl fun _ _ => .pure hPl ⟨⟨hI, ?_⟩, fun i hi => ⟨(hi' i hi).1, by simp⟩⟩
      have hb : ({ t with times := Function.update t.times side (some micros) } : JoinTask).begun = true :=
        begun_of_isSome side (by simp)
      refine ⟨h.items, fun side' hd => ?_, fun hno => absurd (hb.symm.trans hno) (by simp), h.sequence⟩
      obtain rfl | hs := eq_or_ne side' side
      · simp
      · simpa [hs] using h.done side' hd
    | graphProgress wm flags =>
      refine .lift_bind hPl fun _ hso => .lift_bind hPl fun p hp => .pure hPl ⟨⟨hI, h⟩, fun i hi => ?_⟩
      cases some.inj hi
      exact ⟨hc wm flags p rfl hp, by simpa [isSome_iff_ne_none] using refuseIf_eq_ok.mp hso⟩
    | graphRoundEnd got =>
      refine .lift_bind hPl fun _ hso => .pure hPl ⟨⟨hI, h.items, fun side' hd => ?_, h.between, h.sequence⟩, hi'⟩
      obtain rfl | hs := eq_or_ne side' side
      · simpa [isSome_iff_ne_none] using (not_or.mp (refuseIf_eq_ok.mp hso)).2
      · exact h.done side' (by simpa [hs] using hd)
    | checkpointBarrier checkpoint =>
      unfold JoinTask.receiveControl
      dsimp only
      split_ifs
      · refine (receiveBarrier_ensures hP hboundary hI h).bind fun log' t' ⟨hI', h', ht⟩ => ?_
        exact .pure (hP _ _ hI') ⟨⟨hI', h'⟩, fun i hi => ht ▸ hi' i hi⟩
      · exact .pure hPl ⟨⟨hI, h⟩, fun i hi => by cases hi⟩
    | legacy => exact .error hPl

variable (hitem : ∀ log s side credits i, G side i → I log s → Ensures log (JoinState.item side credits s i) P I)
include hitem

omit hboundary in
theorem items_ensures {credits : ℕ → ℕ → Credits} {s : JoinState} {buffer : List Item}
    (hb : ∀ i ∈ buffer, G side i) (hI : I log s) : Ensures log (s.items side credits buffer) P I := by
  refine Ensures.foldM (G := fun i : Item × ℕ => G side i.1) hP (fun log s i hi hI => hitem log s side _ i.1 hi hI)
    (fun i hi => hb i.1 ?_) hI
  exact List.fst_mem_of_mem_zipIdx hi

theorem round_ensures (hI : I log t.toJoinState) (h : t.Collected G) :
    Ensures log (t.round around) P fun log t => I log t.toJoinState ∧ t.Collected G := by
  refine .emit_bind ?_
  have ht := hboundary _ _ _ (.processingTime ((t.times .left).getD 0)) hI
  refine (items_ensures hP hitem (h.items .left) ht).bind fun log₁ s₁ h₁ => ?_
  refine (items_ensures hP hitem (h.items .right) h₁).bind fun log₂ s₂ h₂ => ?_
  have he := hboundary _ _ _ (.roundEnd t.sequence) h₂
  refine .emit_bind (.lift_bind (hP _ _ he) fun next hn => ?_)
  obtain ⟨h', rfl⟩ := Collected.start (G := G) hn
  exact .pure (hP _ _ he) ⟨he, h'.items, h'.done, h'.between, h'.sequence⟩

/-- **One delivery.** -/
theorem deliver_ensures {d : Delivery} (hd : d.Brings G) (hI : I log t.toJoinState) (h : t.Collected G) :
    Ensures log (t.deliver ctx d) P fun log t => I log t.toJoinState ∧ t.Collected G := by
  have hPl := hP _ _ hI
  unfold JoinTask.deliver
  split_ifs
  · obtain ⟨side, envelope, around⟩ := d
    cases envelope with
    | none => exact .error hPl
    | some env =>
      obtain ⟨hb, hc⟩ := hd env rfl
      refine .lift_bind hPl fun r hr => ?_
      obtain ⟨h₁, hs, hi₁⟩ := h.receiveBatch hb hr
      refine (receiveControl_ensures hP hboundary (hs ▸ hI) h₁ hi₁ hc).bind fun log' r hr => ?_
      obtain ⟨t', item⟩ := r
      obtain ⟨⟨hI', h'⟩, hi'⟩ := hr
      cases item with
      | none => exact .pure (hP _ _ hI') ⟨hI', h'⟩
      | some item =>
        refine .lift_bind (hP _ _ hI') fun t'' ht'' => ?_
        obtain ⟨h'', hs''⟩ := h'.buffer (fun i hi => hi' i (congrArg some hi)) ht''
        have hI'' : I log' t''.toJoinState := hs'' ▸ hI'
        dsimp only
        split_ifs
        · exact round_ensures hP hboundary hitem hI'' h''
        · exact .pure (hP _ _ hI'') ⟨hI'', h''⟩
  · exact .pure hPl ⟨hI, h⟩

/-- **A run.** -/
theorem run_ensures {deliveries : List Delivery} (hd : ∀ d ∈ deliveries, d.Brings G) (hI : I log t.toJoinState)
    (h : t.Collected G) :
    Ensures log (t.run ctx deliveries) P fun log t => I log t.toJoinState ∧ t.Collected G :=
  Ensures.foldM (f := deliver ctx) (G := Delivery.Brings G) (I := fun log t => I log t.toJoinState ∧ t.Collected G)
    (fun _ _ h => hP _ _ h.1) (fun _ _ _ hd h => deliver_ensures hP hboundary hitem hd h.1 h.2) hd ⟨hI, h⟩

end

end JoinTask

end Sparrow.Runtime
