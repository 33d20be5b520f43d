import Sparrow.Runtime.RoundGathering
import Sparrow.Runtime.TimeUnion

/-!
# The union gathers a round

One envelope either is refused, with nothing sent, or is added to the round; when no port
can be read any more the round is executed, or the barriers have met.

## The model

The surroundings answer questions: is there memory, is a checkpoint still wanted. What
they answer may depend on the round and on what is asked, not on the order of the
questions: `UnionOracle`, and the field `active` of a `PortMessage`.
-/

namespace Sparrow.Runtime

open Library Model Function Emits

/-- Whether there is memory for the buffer of a round, by the round and the number of its items. -/
abbrev UnionOracle := ℕ → ℕ → Result Unit

variable {around : UnionAround} {item : Option Item} {env : Envelope} {c : ℕ} {e : Effect}

namespace UnionTask

variable {n : ℕ} (ctx : GraphCtx) (oracle : UnionOracle) (t : UnionTask n)

def asRound : Round (Fin n) where
  times := t.time
  done := t.done
  barriers := t.barriers
  buffers := t.buffers
  count := t.items
  rows := t.rows
  bytes := t.bytes

def withRound (r : Round (Fin n)) : UnionTask n :=
  { t with
    time := r.times, done := r.done, barriers := r.barriers, buffers := r.buffers, items := r.count, rows := r.rows
    bytes := r.bytes }

def rules : RoundRules where
  previousTime := t.previousTime
  sequence := t.sequence
  add := (· + ·)
  fits rows bytes := (rows ≤ usizeMax ∧ bytes ≤ usizeMax) ∧ rows ≤ ctx.maxRows ∧ bytes ≤ ctx.reservationBytes / 2
  room items := items ≤ usizeMax ∧ items ≤ satAdd ctx.maxRows (n * 4) ∧ oracle t.sequence items = .ok ()
  add_right_comm := Nat.add_right_comm
  fits_of_add := by
    intro a b a' b' c c' h
    omega

def gathering : Gathering (Fin n) (UnionTask n) where
  round := asRound
  put := withRound
  rules := rules ctx oracle
  round_put _ _ := rfl
  put_put _ _ _ := rfl
  rules_put _ _ := rfl

def portTask : PortTask (Fin n) (UnionTask n) PortMessage (UnionEvent n) SparrowError where
  ready := ready
  receive t port a := t.receive ctx { workspace := oracle t.sequence (t.items + 1), active := a.active } port a.envelope

def meet (checkpoint : ℕ) : UnionTaskM n (UnionTask n) := do
  let t ← .lift (t.recordUnion checkpoint)
  .emit (.recorded checkpoint t.state)
  .emit (.barrier checkpoint)
  return { t with barriers := fun _ => none }

/-- What there is to do when no port can be read. -/
def settle : UnionTaskM n (UnionTask n) :=
  if ∀ i, t.done i then t.round ctx
  else if ∀ i, (t.barriers i).isSome then t.meet ((List.ofFn t.barriers).head?.join.getD 0)
  else pure t

variable {ctx oracle} {t : UnionTask n} {p : Fin n}

theorem settle_of_not (hp : t.barriers p = none) : t.settle ctx = if ∀ i, t.done i then t.round ctx else pure t := by
  unfold settle
  split_ifs with h₁ h₂
  · rfl
  · exact absurd (h₂ p) (by simp [hp])
  · rfl

theorem barred_eq_false : t.barred = false ↔ ∀ i, t.barriers i = none := by
  simp [barred]

def counted (t : UnionTask n) (batch : Option InputBatch) : UnionTask n :=
  { t with
    rows := batch.elim t.rows fun b => t.rows + b.rows.length
    bytes := batch.elim t.bytes fun b => t.bytes + b.leased }

theorem receiveBatch_eq_ok (batch : Option InputBatch) (r : UnionTask n × Option Item) :
    t.receiveBatch ctx p batch = .ok r ↔
      t.asRound.TakesBatch (t.rules ctx oracle) p batch ∧ r = (t.counted batch, batch.map fun b => .data b.rows) := by
  cases batch with
  | none => simp [receiveBatch, Round.TakesBatch, counted, @eq_comm _ _ r]
  | some b =>
    simp only [receiveBatch, bind_eq_ok, refuseIf_eq_ok, exists_const, Bool.or_eq_true, not_or, Bool.not_eq_true,
      barred_eq_false, Option.isNone_eq_false_iff, not_lt, gt_iff_lt, pure, Except.pure, Except.ok.injEq]
    simp only [Round.TakesBatch, Option.some.injEq, forall_eq', asRound, rules, @eq_comm _ _ r, and_assoc]
    rfl

/-- The task after a control, and what it will buffer. -/
def afterSignal (t : UnionTask n) (port : Fin n) (item : Option Item) :
    Signal → UnionTaskM n (UnionTask n × Option (Option Item))
  | .quiet => pure (t, some item)
  | .time m => pure ({ t with time := update t.time port (some m) }, some item)
  | .progress p => pure (t, some (some (.progress p)))
  | .roundEnd _ => pure ({ t with done := update t.done port true }, some item)
  | .barrier c =>
    let t := { t with barriers := update t.barriers port (some c) }
    (if ∀ i, (t.barriers i).isSome then t.meet c else pure t) >>= fun t => pure (t, some item)
  | .stale => pure (t, none)
  | .refused => .lift (.error (invalidGraph ""))

variable (ctx oracle) in
theorem receiveControl_guards (control : Option StreamControl) :
    (t.receiveControl around p item control).Guards
      (t.asRound.TakesSignal (t.rules ctx oracle) p (Effect.signalOf around.active control))
      (t.afterSignal p item (Effect.signalOf around.active control)) := by
  cases control with
  | none => exact .of_eq trivial rfl
  | some control =>
    cases control with
    | processingTime m =>
      refine guards_refuseIf ?_ _ _
      simp [Effect.signalOf, Round.TakesSignal, asRound, rules, barred, Option.any_eq_false, and_assoc]
    | graphProgress wm flags =>
      simp only [Effect.signalOf]
      cases hp : Progress.fromControl wm flags with
      | error e =>
        simp only [receiveControl, hp]
        exact .of_refuses id (refuses_lift_bind fun _ _ => (refuses_error e).bind _)
      | ok pr =>
        simp only [receiveControl, hp]
        refine guards_refuseIf ?_ _ _
        simp [Round.TakesSignal, asRound, Option.isSome_iff_ne_none]
    | graphRoundEnd got =>
      refine guards_refuseIf ?_ _ _
      simp [Effect.signalOf, Round.TakesSignal, asRound, rules, Option.isSome_iff_ne_none]
    | checkpointBarrier c =>
      simp only [Effect.signalOf, receiveControl]
      cases around.active with
      | false => exact .of_eq trivial rfl
      | true =>
        refine (guards_refuseIf ?_ _ _).bind _
        simp [Round.TakesSignal, asRound, Option.any_eq_false]
    | legacy => exact .of_refuses id (refuses_error _)

/-- The rest of an envelope: what it brings is buffered, and the round may be complete. -/
def finish (ctx : GraphCtx) (around : UnionAround) (p : Fin n) :
    UnionTask n × Option (Option Item) → UnionTaskM n (UnionTask n)
  | (t, none) => pure t
  | (t, some item) => .lift (t.buffer ctx around p item) >>= fun t => if ∀ i, t.done i then t.round ctx else pure t

theorem receive_eq : t.receive ctx around p (some env) = .lift (t.receiveBatch ctx p env.batch) >>= fun r =>
    r.1.receiveControl around p r.2 env.control >>= finish ctx around p := by
  rw [receive]
  congr 1
  funext ⟨t, item⟩
  dsimp only
  congr 1
  funext ⟨t', item'⟩
  cases item' <;> rfl

variable (oracle) in
theorem buffer_eq_ok (hw : around.workspace = oracle t.sequence (t.items + 1)) (t' : UnionTask n) :
    t.buffer ctx around p item = .ok t' ↔ (item.isSome → (t.rules ctx oracle).room (t.items + 1)) ∧ t' = { t with
      items := t.items + item.toList.length
      buffers := item.elim t.buffers fun i => update t.buffers p (t.buffers p ++ [i]) } := by
  cases item with
  | none => simp [buffer, @eq_comm _ _ t']
  | some i =>
    simp only [buffer, bind_eq_ok, refuseIf_eq_ok, exists_const, not_lt, gt_iff_lt, hw, pure, Except.pure,
      Except.ok.injEq]
    simp [rules, @eq_comm _ _ t', and_assoc, Unique.exists_iff]

variable (oracle) in
theorem finish_guards (hw : around.workspace = oracle t.sequence (t.items + 1)) :
    (finish ctx around p (t, some item)).Guards (item.isSome → (t.rules ctx oracle).room (t.items + 1))
      (let t' := { t with
        items := t.items + item.toList.length
        buffers := item.elim t.buffers fun i => update t.buffers p (t.buffers p ++ [i]) }
      if ∀ i, t'.done i then t'.round ctx else pure t') :=
  .lift_bind (buffer_eq_ok oracle hw) _

theorem meet_bind (hp : t.done p = false) (c : ℕ) :
    (t.meet c >>= fun t => if ∀ i, t.done i then t.round ctx else pure t) = t.meet c := by
  have hn : ¬ ∀ i, t.done i = true := fun h => by simp [h p] at hp
  unfold meet recordUnion refuseIf
  split_ifs
  · rfl
  · simp only [bind, andThen, Except.bind, lift, emit, pure, Except.pure, if_neg hn, List.append_nil]

theorem head_barriers (p : Fin n) (h : ∀ i, t.barriers i = some c) : (List.ofFn t.barriers).head?.join.getD 0 = c := by
  cases n with
  | zero => exact p.elim0
  | succ n => simp [List.ofFn_succ, h]

theorem settle_of_barrier (hp : t.done p = false) (hag : ∀ i c', t.barriers i = some c' → c' = c) :
    t.settle ctx = if ∀ i, (t.barriers i).isSome then t.meet c else pure t := by
  unfold settle
  rw [if_neg fun ha => by simp [ha p] at hp]
  refine ite_congr rfl (fun ha => ?_) fun _ => rfl
  rw [head_barriers p fun i => ?_]
  obtain ⟨c', hc'⟩ := Option.isSome_iff_exists.mp (ha i)
  rw [hc', hag i c' hc']

theorem finish_of_barrier (hp : t.done p = false) :
    ((if ∀ i, (t.barriers i).isSome then t.meet c else pure t) >>= fun t => pure (t, some none)) >>=
      finish ctx around p = if ∀ i, (t.barriers i).isSome then t.meet c else pure t := by
  rw [bind_assoc]
  split_ifs
  · exact meet_bind hp c
  · exact if_neg fun ha => by simp [ha p] at hp

variable (ctx oracle) in
theorem ready_iff : t.ready p = true ↔ (gathering ctx oracle).Ready t p := by
  simp [ready, Gathering.Ready, gathering, asRound]

theorem settle_take (hp : t.ready p = true) (hb : ∀ c, e.signal ≠ .barrier c) :
    (t.withRound (t.asRound.take (t.rules ctx oracle) p e)).settle ctx =
      let t' := t.withRound (t.asRound.take (t.rules ctx oracle) p e)
      if ∀ i, t'.done i then t'.round ctx else pure t' := by
  refine settle_of_not (p := p) ?_
  have hba := Round.barriers_take_of_not (r := t.asRound) (R := t.rules ctx oracle) (p := p) hb
  exact (congrFun hba p).trans ((ready_iff ctx oracle).mp hp).2

/-- **What an envelope does.** -/
theorem receive_guards (hp : t.ready p = true) (hba : e.batch = env.batch)
    (hsi : e.signal = Effect.signalOf around.active env.control)
    (hw : around.workspace = oracle t.sequence (t.items + 1)) :
    (t.receive ctx around p (some env)).Guards (t.asRound.Takes (t.rules ctx oracle) p e)
      ((t.withRound (t.asRound.take (t.rules ctx oracle) p e)).settle ctx) := by
  have hd : t.done p = false := ((ready_iff ctx oracle).mp hp).1
  rw [Round.takes_iff, receive_eq, hba, hsi]
  refine (Emits.Guards.lift_bind (receiveBatch_eq_ok env.batch) _).and fun hb => ?_
  refine ((receiveControl_guards ctx oracle (t := t.counted env.batch) env.control).bind _).and fun hs => ?_
  obtain ⟨batch, signal⟩ := e
  subst hba hsi
  generalize Effect.signalOf around.active env.control = signal at hs ⊢
  cases signal with
  | quiet | time m | progress pr | roundEnd k =>
    rw [settle_take hp (by simp)]
    simp only [afterSignal, pure_bind]
    cases env.batch <;> exact finish_guards oracle hw
  | stale =>
    refine .of_eq nofun ?_
    rw [settle_take hp (by simp), if_neg fun ha => absurd (hd.symm.trans (ha p)) (by simp)]
    cases env.batch <;> rfl
  | barrier c =>
    have hn : env.batch = none := hb.eq_none hs
    simp only [hn]
    refine .of_eq nofun ((finish_of_barrier (t := { t with barriers := update t.barriers p (some c) }) hd).trans
      (settle_of_barrier (t := { t with barriers := update t.barriers p (some c) }) hd
        (fun _ _ hi => hs.barriers_agree hi)).symm)
  | refused => exact hs.elim

/-- **The union gathers a round and then settles it.** -/
theorem gathers : (portTask (n := n) ctx oracle).Gathers (fun t p a => (gathering ctx oracle).collect t p a.effect)
    (settle ctx) where
  refuses {t p a} hp h := by
    have hn := Gathering.collect_eq_none.mp h
    obtain ⟨env, active⟩ := a
    cases env with
    | none => exact refuses_error _
    | some env => exact (receive_guards hp rfl rfl rfl).2 hn
  settles {t t' p a} hp h := by
    obtain ⟨ht, rfl⟩ := Gathering.collect_eq_some.mp h
    obtain ⟨env, active⟩ := a
    cases env with
    | none => exact absurd rfl ht.known
    | some env => exact (receive_guards hp rfl rfl rfl).1 ht
  waits {t p} hp := by
    obtain ⟨hd, hb⟩ := (ready_iff ctx oracle).mp hp
    rw [settle_of_not hb]
    exact if_neg fun ha => absurd (hd.symm.trans (ha p)) (by simp)
  stays hpq _ hq h := (ready_iff ctx oracle).mpr (((ready_iff ctx oracle).mp hq).collect hpq h)
  comm hpq hp hq := Gathering.collect_comm hpq ((ready_iff ctx oracle).mp hp) ((ready_iff ctx oracle).mp hq)

end UnionTask

end Sparrow.Runtime
