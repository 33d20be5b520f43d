import Sparrow.Runtime.RoundGathering

/-!
# The join gathers a round

As the union does: one envelope either is refused, with nothing sent, or is added to the
round; when no port can be read any more the round is executed, or the barriers have met.
The join counts rows and bytes without overflow checks, by saturation.
-/

namespace Sparrow.Runtime

open Library Model Function Emits

/-- What the surroundings answer, by the round and what is asked. -/
structure JoinOracle where
  credits : ℕ → Side → ℕ → ℕ → Credits
  workspace : ℕ → ℕ → Result Unit
  freeze : ℕ → ℕ → Result Unit

def PortMessage.checkpoint (a : PortMessage) : ℕ :=
  match a.envelope.bind (·.control) with
  | some (.checkpointBarrier checkpoint) => checkpoint
  | _ => 0

theorem Side.forall_iff {P : Side → Prop} : (∀ i, P i) ↔ P .left ∧ P .right :=
  ⟨fun h => ⟨h _, h _⟩, fun ⟨hl, hr⟩ i => by cases i <;> assumption⟩

variable {around : Surroundings} {item : Option Item} {env : Envelope} {c : ℕ} {e : Effect}

namespace JoinTask

variable (ctx : JobCtx) (oracle : JoinOracle) (t : JoinTask)

def asRound : Round Side where
  times := t.times
  done := t.done
  barriers := t.barriers
  buffers := t.buffers
  count := t.count
  rows := t.rows
  bytes := t.bytes

def withRound (r : Round Side) : JoinTask :=
  { t with
    times := r.times, done := r.done, barriers := r.barriers, buffers := r.buffers, count := r.count, rows := r.rows
    bytes := r.bytes }

theorem satAdd_right_comm (a b c : ℕ) : satAdd (satAdd a b) c = satAdd (satAdd a c) b := by
  unfold satAdd
  omega

theorem satAdd_le_satAdd (a b c : ℕ) : satAdd a b ≤ satAdd (satAdd a b) c := by
  unfold satAdd
  omega

def rules : RoundRules where
  previousTime := t.previousTime
  sequence := t.sequence
  add := satAdd
  fits rows bytes := rows ≤ ctx.maxRows ∧ bytes ≤ ctx.reservationBytes / 2
  room items := items ≤ satAdd ctx.maxRows 8 ∧ oracle.workspace t.sequence items = .ok ()
  add_right_comm := satAdd_right_comm
  fits_of_add h := ⟨(satAdd_le_satAdd _ _ _).trans h.1, (satAdd_le_satAdd _ _ _).trans h.2⟩

def gathering : Gathering Side JoinTask where
  round := asRound
  put := withRound
  rules := rules ctx oracle
  round_put _ _ := rfl
  put_put _ _ _ := rfl
  rules_put _ _ := rfl

/-- What the surroundings answer while a message is handled. -/
def aroundOf (a : PortMessage) : Surroundings where
  credits := oracle.credits t.sequence
  workspace := oracle.workspace t.sequence (t.count + 1)
  freeze := oracle.freeze t.sequence a.checkpoint
  active := a.active

def portTask : PortTask Side JoinTask PortMessage JoinEvent SparrowError where
  ready := ready
  receive t side a := t.receive ctx (t.aroundOf oracle a) side a.envelope

def meet (around : Surroundings) (t : JoinTask) (checkpoint : ℕ) : JoinTaskM JoinTask := do
  .emit (.frozen checkpoint (t.freeze ctx around))
  .emit (.barrier checkpoint)
  return { t with barriers := fun _ => none }

/-- The answers when no port can be read, with the checkpoint of the barriers. -/
def restOf (checkpoint : ℕ) : Surroundings where
  credits := oracle.credits t.sequence
  workspace := .ok ()
  freeze := oracle.freeze t.sequence checkpoint
  active := true

/-- What there is to do when no port can be read. -/
def settle : JoinTaskM JoinTask :=
  if t.done .left && t.done .right then t.round (t.restOf oracle 0)
  else if (t.barriers .left).isSome && (t.barriers .right).isSome then
    let checkpoint := (t.barriers .left).getD 0
    t.meet ctx (t.restOf oracle checkpoint) checkpoint
  else pure t

variable {ctx oracle} {t : JoinTask} {p : Side}

theorem both_done_eq_false (hp : t.done p = false) : (t.done .left && t.done .right) = false := by
  cases p <;> simp [hp]

theorem settle_of_not (hp : t.barriers p = none) :
    t.settle ctx oracle = if t.done .left && t.done .right then t.round (t.restOf oracle 0) else pure t := by
  have hn : ((t.barriers .left).isSome && (t.barriers .right).isSome) = false := by cases p <;> simp [hp]
  unfold settle
  simp only [hn, Bool.false_eq_true, if_false]

theorem barred_eq_false : t.barred = false ↔ ∀ i, t.barriers i = none := by
  simp [barred, Side.forall_iff]

def counted (t : JoinTask) (batch : Option InputBatch) : JoinTask :=
  { t with
    rows := batch.elim t.rows fun b => satAdd t.rows b.rows.length
    bytes := batch.elim t.bytes fun b => satAdd t.bytes b.leased }

theorem receiveBatch_eq_ok (batch : Option InputBatch) (r : JoinTask × Option Item) :
    t.receiveBatch ctx p batch = .ok r ↔
      t.asRound.TakesBatch (t.rules ctx oracle) p batch ∧ r = (t.counted batch, batch.map fun b => .data b.rows) := by
  cases batch with
  | none => simp [receiveBatch, Round.TakesBatch, counted, @eq_comm _ _ r]
  | some b =>
    simp only [receiveBatch, bind_eq_ok, refuseIf_eq_ok, exists_const, Bool.or_eq_true, not_or, Bool.not_eq_true,
      barred_eq_false, Option.isNone_eq_false_iff, not_lt, gt_iff_lt, pure, Except.pure, Except.ok.injEq]
    simp only [Round.TakesBatch, Option.some.injEq, forall_eq', asRound, rules, @eq_comm _ _ r, and_assoc]
    rfl

/-- The task after a control, and what it will buffer. -/
def afterSignal (ctx : JobCtx) (around : Surroundings) (t : JoinTask) (side : Side) (item : Option Item) :
    Signal → JoinTaskM (JoinTask × Option (Option Item))
  | .quiet => pure (t, some item)
  | .time m => pure ({ t with times := update t.times side (some m) }, some item)
  | .progress p => pure (t, some (some (.progress p)))
  | .roundEnd _ => pure ({ t with done := update t.done side true }, some item)
  | .barrier c =>
    let t := { t with barriers := update t.barriers side (some c) }
    (if (t.barriers .left).isSome && (t.barriers .right).isSome then t.meet ctx around c else pure t) >>= fun t =>
      pure (t, some item)
  | .stale => pure (t, none)
  | .refused => .lift (.error (invalidGraph ""))

variable (ctx oracle) in
theorem receiveControl_guards (control : Option StreamControl) :
    (t.receiveControl ctx around p item control).Guards
      (t.asRound.TakesSignal (t.rules ctx oracle) p (Effect.signalOf around.active control))
      (t.afterSignal ctx around p item (Effect.signalOf around.active control)) := by
  cases control with
  | none => exact .of_eq trivial rfl
  | some control =>
    cases control with
    | processingTime m =>
      refine guards_refuseIf ?_ _ _
      simp [Effect.signalOf, Round.TakesSignal, asRound, rules, barred, Side.forall_iff, Option.any_eq_false, and_assoc]
      tauto
    | graphProgress wm flags =>
      simp only [Effect.signalOf]
      cases hp : Progress.fromControl wm flags with
      | error e =>
        simp only [receiveControl, hp]
        exact .of_refuses id (refuses_lift_bind fun _ _ => (refuses_error e).bind _)
      | ok pr =>
        simp only [receiveControl, hp]
        refine guards_refuseIf ?_ _ _
        simp [Round.TakesSignal, asRound, Option.isSome_iff_ne_none]
    | graphRoundEnd got =>
      refine guards_refuseIf ?_ _ _
      simp [Effect.signalOf, Round.TakesSignal, asRound, rules, Option.isSome_iff_ne_none]
    | checkpointBarrier c =>
      simp only [Effect.signalOf, receiveControl]
      cases around.active with
      | false => exact .of_eq trivial rfl
      | true =>
        refine (guards_refuseIf ?_ _ _).bind _
        simp [Round.TakesSignal, asRound, begun, Side.forall_iff, Option.any_eq_false, and_assoc]
    | legacy => exact .of_refuses id (refuses_error _)

/-- The rest of an envelope: what it brings is buffered, and the round may be complete. -/
def finish (ctx : JobCtx) (around : Surroundings) (p : Side) : JoinTask × Option (Option Item) → JoinTaskM JoinTask
  | (t, none) => pure t
  | (t, some item) => .lift (t.buffer ctx around p item) >>= fun t =>
    if t.done .left && t.done .right then t.round around else pure t

theorem receive_eq : t.receive ctx around p (some env) = .lift (t.receiveBatch ctx p env.batch) >>= fun r =>
    r.1.receiveControl ctx around p r.2 env.control >>= finish ctx around p := by
  rw [receive]
  congr 1
  funext ⟨t, item⟩
  dsimp only
  congr 1
  funext ⟨t', item'⟩
  cases item' <;> rfl

variable (oracle) in
theorem buffer_eq_ok (hw : around.workspace = oracle.workspace t.sequence (t.count + 1)) (t' : JoinTask) :
    t.buffer ctx around p item = .ok t' ↔ (item.isSome → (t.rules ctx oracle).room (t.count + 1)) ∧ t' = { t with
      count := t.count + item.toList.length
      buffers := item.elim t.buffers fun i => update t.buffers p (t.buffers p ++ [i]) } := by
  cases item with
  | none => simp [buffer, @eq_comm _ _ t']
  | some i =>
    simp only [buffer, bind_eq_ok, refuseIf_eq_ok, exists_const, not_lt, gt_iff_lt, hw, pure, Except.pure,
      Except.ok.injEq]
    simp [rules, @eq_comm _ _ t', and_assoc, Unique.exists_iff]

variable (oracle) in
theorem finish_guards (hw : around.workspace = oracle.workspace t.sequence (t.count + 1)) :
    (finish ctx around p (t, some item)).Guards (item.isSome → (t.rules ctx oracle).room (t.count + 1))
      (let t' := { t with
        count := t.count + item.toList.length
        buffers := item.elim t.buffers fun i => update t.buffers p (t.buffers p ++ [i]) }
      if t'.done .left && t'.done .right then t'.round around else pure t') :=
  .lift_bind (buffer_eq_ok oracle hw) _

theorem meet_bind (hp : t.done p = false) (c : ℕ) :
    (t.meet ctx around c >>= fun t => if t.done .left && t.done .right then t.round around else pure t) =
      t.meet ctx around c := by
  unfold meet
  simp only [bind, andThen, emit, pure, both_done_eq_false hp, Bool.false_eq_true, if_false, List.append_nil]

theorem settle_of_barrier (hp : t.done p = false) (ha : ∀ i c', t.barriers i = some c' → c' = c)
    (har : around.freeze = oracle.freeze t.sequence c) : t.settle ctx oracle =
      if (t.barriers .left).isSome && (t.barriers .right).isSome then t.meet ctx around c else pure t := by
  unfold settle
  simp only [both_done_eq_false hp, Bool.false_eq_true, if_false]
  refine ite_congr rfl (fun hal => ?_) fun _ => rfl
  obtain ⟨c', hc'⟩ := Option.isSome_iff_exists.mp (Bool.and_eq_true_iff.mp hal).1
  obtain rfl := ha .left c' hc'
  simp only [hc', Option.getD_some, meet, freeze, restOf, har]

theorem finish_of_barrier (hp : t.done p = false) :
    ((if (t.barriers .left).isSome && (t.barriers .right).isSome then t.meet ctx around c else pure t) >>= fun t =>
        pure (t, some none)) >>= finish ctx around p =
      if (t.barriers .left).isSome && (t.barriers .right).isSome then t.meet ctx around c else pure t := by
  split_ifs
  · exact meet_bind hp c
  · exact if_neg (by simp [both_done_eq_false hp])

variable (ctx oracle) in
theorem ready_iff : t.ready p = true ↔ (gathering ctx oracle).Ready t p := by
  simp [ready, Gathering.Ready, gathering, asRound]

theorem settle_take (hp : t.ready p = true) (hb : ∀ c, e.signal ≠ .barrier c)
    (ha : around.credits = oracle.credits t.sequence) :
    (t.withRound (t.asRound.take (t.rules ctx oracle) p e)).settle ctx oracle =
      let t' := t.withRound (t.asRound.take (t.rules ctx oracle) p e)
      if t'.done .left && t'.done .right then t'.round around else pure t' := by
  have hba := Round.barriers_take_of_not (r := t.asRound) (R := t.rules ctx oracle) (p := p) hb
  rw [settle_of_not (p := p) ((congrFun hba p).trans ((ready_iff ctx oracle).mp hp).2)]
  simp only [round, ha]
  rfl

/-- **What an envelope does.** -/
theorem receive_guards (hp : t.ready p = true) (hba : e.batch = env.batch)
    (hsi : e.signal = Effect.signalOf around.active env.control)
    (hc : around.credits = oracle.credits t.sequence)
    (hw : around.workspace = oracle.workspace t.sequence (t.count + 1))
    (hf : ∀ c, e.signal = .barrier c → around.freeze = oracle.freeze t.sequence c) :
    (t.receive ctx around p (some env)).Guards (t.asRound.Takes (t.rules ctx oracle) p e)
      ((t.withRound (t.asRound.take (t.rules ctx oracle) p e)).settle ctx oracle) := by
  have hd : t.done p = false := ((ready_iff ctx oracle).mp hp).1
  rw [Round.takes_iff, receive_eq, hba, hsi]
  refine (Emits.Guards.lift_bind (receiveBatch_eq_ok env.batch) _).and fun hb => ?_
  refine ((receiveControl_guards ctx oracle (t := t.counted env.batch) env.control).bind _).and fun hs => ?_
  obtain ⟨batch, signal⟩ := e
  subst hba hsi
  generalize Effect.signalOf around.active env.control = signal at hs hf ⊢
  cases signal with
  | quiet | time m | progress pr | roundEnd k =>
    rw [settle_take hp (by simp) hc]
    simp only [afterSignal, pure_bind]
    cases env.batch <;> exact finish_guards oracle hw
  | stale =>
    refine .of_eq nofun ?_
    rw [settle_take hp (by simp) hc, if_neg]
    · cases env.batch <;> rfl
    · exact ne_true_of_eq_false (both_done_eq_false hd)
  | barrier c =>
    have hn : env.batch = none := hb.eq_none hs
    simp only [hn]
    refine .of_eq nofun ((finish_of_barrier (t := { t with barriers := update t.barriers p (some c) }) hd).trans
      (settle_of_barrier (t := { t with barriers := update t.barriers p (some c) }) hd
        (fun _ _ hi => hs.barriers_agree hi) (hf c rfl)).symm)
  | refused => exact hs.elim

theorem checkpoint_of_barrier {a : PortMessage} (h : a.effect.signal = .barrier c) : a.checkpoint = c := by
  obtain ⟨_ | ⟨batch, _ | control⟩, active⟩ := a
  · cases h
  · cases h
  · cases control with
    | checkpointBarrier checkpoint =>
      cases active with
      | false => cases h
      | true => exact Signal.barrier.inj h
    | graphProgress wm flags =>
      simp only [PortMessage.effect, Effect.signalOf] at h
      split at h <;> cases h
    | processingTime micros => cases h
    | graphRoundEnd sequence => cases h
    | legacy => cases h

theorem freeze_of_barrier {a : PortMessage} (c : ℕ) (h : a.effect.signal = .barrier c) :
    (t.aroundOf oracle a).freeze = oracle.freeze t.sequence c := by
  rw [aroundOf, checkpoint_of_barrier h]

/-- **The join gathers a round and then settles it.** -/
theorem gathers : (portTask ctx oracle).Gathers (fun t p a => (gathering ctx oracle).collect t p a.effect)
    (settle ctx oracle) where
  refuses {t p a} hp h := by
    have hn := Gathering.collect_eq_none.mp h
    obtain ⟨env, active⟩ := a
    cases env with
    | none => exact refuses_error _
    | some env => exact (receive_guards hp rfl rfl rfl rfl freeze_of_barrier).2 hn
  settles {t t' p a} hp h := by
    obtain ⟨ht, rfl⟩ := Gathering.collect_eq_some.mp h
    obtain ⟨env, active⟩ := a
    cases env with
    | none => exact absurd rfl ht.known
    | some env => exact (receive_guards hp rfl rfl rfl rfl freeze_of_barrier).1 ht
  waits {t p} hp := by
    obtain ⟨hd, hb⟩ := (ready_iff ctx oracle).mp hp
    rw [settle_of_not hb]
    exact if_neg (ne_true_of_eq_false (both_done_eq_false hd))
  stays hpq _ hq h := (ready_iff ctx oracle).mpr (((ready_iff ctx oracle).mp hq).collect hpq h)
  comm hpq hp hq := Gathering.collect_comm hpq ((ready_iff ctx oracle).mp hp) ((ready_iff ctx oracle).mp hq)

end JoinTask

end Sparrow.Runtime
