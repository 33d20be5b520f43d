import Sparrow.Runtime.GraphSteps

/-!
# The invariants of a graph job

What holds along every run of a graph job: its histories are those of a network that
passes a marker on when all inputs have shown it (`Streams`), a blocked input of a union
has just shown the barrier that is being aligned (`Aligned`), the barrier of the active
checkpoint is never lost on the way (`Tracked`), and an acknowledgement says what its
participant had processed (`Honest`).

## What is proved

* `Net.Streams.connected` — the histories of a run are those of a network with aligned
  markers, so that the rules of `MarkerCut` apply.
* `Net.run_failed` — if the unions look in time, no stage fails on a barrier.
-/

namespace Sparrow.Runtime.Dag

open Library Model Machine List

variable {S E τ : Type} {stage : Stage E τ}

theorem Stage.isParticipant_of_isUnion (h : stage.isUnion = true) : stage.isParticipant = false := by
  cases stage with
  | unionAll => rfl
  | source | branch | route | operator => simp [Stage.isUnion] at h

theorem Stage.isUnion_of_isSource (h : stage.isSource = true) : stage.isUnion = false := by
  cases stage with
  | source => rfl
  | branch | route | unionAll | operator => simp [Stage.isSource] at h

theorem Task.look_cases (active : Option ℕ) (t : Task E τ) :
    t.look active = { t with polling := true } ∨ (∃ id ∈ t.aligning, active ≠ some id) ∧
        t.look active = { t with aligning := none, blocked := fun _ => false, polling := true } := by
  unfold Task.look
  split_ifs with h
  · obtain ⟨id, hid, hne⟩ := (Option.any_eq_true ..).mp h
    exact .inr ⟨⟨id, hid, by simpa using hne⟩, rfl⟩
  · exact .inl rfl

namespace Net

section Advance

variable [DecidableEq S] {net : Net S E τ} {s : S} {t : Task E τ} {en : Entry E Payload}

@[simp] theorem advance_task_self : (net.advance s t en).task s = { t with pending := en.produced } := by
  simp [advance]

theorem advance_task_of_ne {s' : S} (h : s' ≠ s) : (net.advance s t en).task s' = net.task s' := by
  simp [advance, h]

@[simp] theorem advance_history_self : (net.advance s t en).history s = net.history s ++ [en] := by
  simp [advance]

theorem advance_history_of_ne {s' : S} (h : s' ≠ s) : (net.advance s t en).history s' = net.history s' := by
  simp [advance, h]

end Advance

variable [DecidableEq E] (job : Job S E τ)

/-! ### Streams -/

/-- The stages work by the rules, and what was produced on an edge was taken from it, lies in the mailbox
or is still to be published, in this order. -/
structure Streams (net : Net S E τ) : Prop where
  lawful : ∀ s, job.network.Lawful s (net.history s) (net.task s).state
  edges : ∀ e, atEdge e (made (net.history (job.sender e))) =
    atEdge e (taken (net.history (job.receiver e))) ++ net.mailbox e ++ atEdge e (net.task (job.sender e)).pending
  wired : ∀ s, ∀ x ∈ (net.task s).pending, x.1 ∈ job.outputs s

variable {job}

namespace Streams

variable {net : Net S E τ}

theorem connected (h : net.Streams job) : job.network.Connected net.history where
  lawful s := ⟨_, h.lawful s⟩
  fifo e := ⟨_, by
    rw [← append_assoc]
    exact (h.edges e).symm⟩

theorem passed_of_mailbox (h : net.Streams job) {e : E} {id : ℕ} (hm : .marker id ∈ net.mailbox e) :
    Passed id (net.history (job.sender e)) := by
  refine (h.lawful (job.sender e)).passed_of_mem_made ((mem_atEdge e).mp ?_)
  rw [h.edges e]
  exact mem_append_left _ (mem_append_right _ hm)

theorem passed_of_taken (h : net.Streams job) {s : S} {e : E} {id : ℕ}
    (hm : .marker id ∈ atEdge e (taken (net.history s))) : Passed id (net.history (job.sender e)) := by
  obtain rfl := job.mem_inputs.mp ((h.lawful s).mem_inputs_of_taken ((mem_atEdge e).mp hm))
  exact h.connected.passed_of_taken hm

theorem advance [DecidableEq S] (h : net.Streams job) {s : S} {t : Task E τ} {en : Entry E Payload}
    {mailbox : E → List (Item Payload)} (hp : (net.task s).pending = [])
    (hen : job.network.Follows s (net.history s) (net.task s).state en t.state)
    (hw : ∀ x ∈ en.produced, x.1 ∈ job.outputs s)
    (hm : ∀ e, atEdge e en.received.toList ++ mailbox e = net.mailbox e) :
    Streams job (Net.advance { net with mailbox } s t en) := by
  have hl := (h.lawful s).snoc hen
  -- the entry took from inputs of `s` only
  have hel : ∀ e, job.receiver e ≠ s → mailbox e = net.mailbox e := by
    intro e he
    have hn : atEdge e en.received.toList = [] := by
      rw [eq_nil_iff_forall_not_mem]
      intro x hx
      refine he (job.mem_inputs.mp (hl.mem_inputs_of_taken (x := x) ?_))
      rw [taken_append, taken_singleton]
      exact mem_append_right _ ((mem_atEdge e).mp hx)
    rw [← hm e, hn, nil_append]
  refine ⟨fun s' => ?_, fun e => ?_, fun s' => ?_⟩
  · obtain rfl | hs := eq_or_ne s' s
    · simpa using hl
    · rw [advance_task_of_ne hs, advance_history_of_ne hs]
      exact h.lawful s'
  · have hed := h.edges e
    have hlt := job.rank_lt e
    by_cases hse : job.sender e = s
    · have hre : job.receiver e ≠ s := fun hr => by rw [hse, hr] at hlt; omega
      rw [hse] at hed ⊢
      rw [advance_history_self, advance_task_self, advance_history_of_ne hre, made_append, made_singleton,
        atEdge_append, hed, hp]
      simp [Net.advance, hel e hre]
    · rw [advance_history_of_ne hse, advance_task_of_ne hse]
      by_cases hre : job.receiver e = s
      · rw [hre] at hed ⊢
        simpa [Net.advance, hm e] using hed
      · rw [advance_history_of_ne hre]
        simpa [Net.advance, hel e hre] using hed
  · obtain rfl | hs := eq_or_ne s' s
    · simpa using hw
    · rw [advance_task_of_ne hs]
      exact h.wired s'

end Streams

variable {net : Net S E τ} {e : E} {x : Item Payload}

theorem atEdge_append_pop {rest : List (Item Payload)} (hm : net.mailbox e = x :: rest) (e' : E) :
    atEdge e' (some (e, x)).toList ++ (net.pop e).mailbox e' = net.mailbox e' := by
  obtain rfl | h := eq_or_ne e' e
  · simp [pop, hm, atEdge_cons]
  · simp [pop, h, atEdge_cons, Ne.symm h]

/-! ### Alignment -/

variable (job)

/-- A blocked input has just shown the barrier that its union aligns; not all inputs are blocked. -/
structure Aligned (net : Net S E τ) : Prop where
  blocked : ∀ s e, (net.task s).blocked e = true →
    ∃ id ∈ (net.task s).aligning, (atEdge e (taken (net.history s))).getLast? = some (.marker id)
  opened : ∀ s, (job.stage s).isSource = false → ∃ i ∈ job.inputs s, (net.task s).blocked i = false
  single : ∀ s, (job.stage s).isUnion = false → (net.task s).aligning = none
  settled : ∀ s, (net.task s).Settled

variable {job}

namespace Aligned

variable {net : Net S E τ}

theorem unblocked_of_single (h : net.Aligned job) {s : S} (hs : (job.stage s).isUnion = false) (e : E) :
    (net.task s).blocked e = false := by
  by_contra hb
  obtain ⟨id, hid, -⟩ := h.blocked s e (by simpa using hb)
  rw [h.single s hs] at hid
  simp at hid

theorem unblocked (h : net.Aligned job)
    (ho : (job.stage (job.receiver e)).isUnion = true → (net.task (job.receiver e)).blocked e = false) :
    (net.task (job.receiver e)).blocked e = false := by
  cases hu : (job.stage (job.receiver e)).isUnion with
  | true => exact ho hu
  | false => exact h.unblocked_of_single hu e

theorem of_task (h : net.Aligned job) {net' : Net S E τ} (hh : net'.history = net.history)
    (ht : ∀ s, (net'.task s).blocked = (net.task s).blocked ∧ (net'.task s).aligning = (net.task s).aligning ∧
      (net'.task s).state = (net.task s).state) : net'.Aligned job := by
  refine ⟨fun s => ?_, fun s => ?_, fun s => ?_, fun s time hti => ?_⟩
  · rw [(ht s).1, (ht s).2.1, hh]
    exact h.blocked s
  · rw [(ht s).1]
    exact h.opened s
  · rw [(ht s).2.1]
    exact h.single s
  · exact h.settled s time ((ht s).2.2 ▸ hti)

variable {en : Entry E Payload}

theorem advance [DecidableEq S] (h : net.Aligned job) {s : S} {t : Task E τ} {mailbox : E → List (Item Payload)}
    (hb : ∀ e, t.blocked e = true →
      ∃ id ∈ t.aligning, (atEdge e (taken (net.history s ++ [en]))).getLast? = some (.marker id))
    (ho : (job.stage s).isSource = false → ∃ i ∈ job.inputs s, t.blocked i = false)
    (hsi : (job.stage s).isUnion = false → t.aligning = none) (hse : t.Settled) :
    Aligned job (Net.advance { net with mailbox } s t en) := by
  refine ⟨fun s' => ?_, fun s' => ?_, fun s' => ?_, fun s' => ?_⟩ <;> by_cases hs : s' = s
  · subst hs
    simpa using hb
  · rw [advance_task_of_ne hs, advance_history_of_ne hs]
    exact h.blocked s'
  · subst hs
    simpa using ho
  · rw [advance_task_of_ne hs]
    exact h.opened s'
  · subst hs
    simpa using hsi
  · rw [advance_task_of_ne hs]
    exact h.single s'
  · subst hs
    simpa [Task.Settled] using hse
  · rw [advance_task_of_ne hs]
    exact h.settled s'

theorem blocked_of_taken (h : net.Aligned job)
    (hen : en.received = some (e, x)) (hb : (net.task (job.receiver e)).blocked e = false) {e' : E}
    (hbl : (net.task (job.receiver e)).blocked e' = true) :
    ∃ id ∈ (net.task (job.receiver e)).aligning,
      (atEdge e' (taken (net.history (job.receiver e) ++ [en]))).getLast? = some (.marker id) := by
  have hne : e ≠ e' := by
    rintro rfl
    simp [hb] at hbl
  obtain ⟨id, hid, hl⟩ := h.blocked _ e' hbl
  refine ⟨id, hid, ?_⟩
  rw [taken_append, taken_singleton, hen, atEdge_append]
  simpa [atEdge_cons, hne] using hl

end Aligned

variable {t : Task E τ}

theorem Replies.follows (h : net.Aligned job) {id : ℕ} {forward : Bool}
    (hr : Replies job net.active (job.receiver e) (net.task (job.receiver e)) e id ⟨forward, [], t⟩) :
    job.network.Follows (job.receiver e) (net.history (job.receiver e)) (net.task (job.receiver e)).state
      ⟨some (e, .marker id), if forward then markerOn id (job.outputs (job.receiver e)) else [],
        if forward then some id else none⟩ t.state := by
  have he : e ∈ job.inputs (job.receiver e) := job.mem_inputs.mpr rfl
  have hl : (atEdge e (taken (net.history (job.receiver e)) ++ [(e, .marker id)])).getLast? = some (.marker id) := by
    simp [atEdge_cons]
  cases hr with
  | dropped | held => exact .held he
  | passed hs hu =>
    obtain ⟨i, hi⟩ := job.one_input _ hs hu
    obtain rfl : e = i := by simpa [hi] using he
    refine .passed he fun i' hi' => ?_
    obtain rfl : i' = e := by simpa [Job.network, hi] using hi'
    exact hl
  | whole hu hac ha hal =>
    refine .passed he fun i hi => ?_
    obtain rfl | hie := eq_or_ne i e
    · exact hl
    · obtain ⟨x, hx, hxl⟩ := h.blocked _ i (by simpa [hie] using hal i hi)
      obtain rfl := ha x hx
      simpa [atEdge_cons, Ne.symm hie] using hxl

/-! ### Checkpoints -/

variable (job)

/-- The ids of the barriers, and what has become of a barrier of the active checkpoint: the stage has
passed it on, and acknowledged it, or holds it back. -/
structure Tracked (net : Net S E τ) (seen : List (Ack S E τ)) : Prop where
  active : ∀ id ∈ net.active, id = net.begun ∧ 0 < id
  passed : ∀ s id, Passed id (net.history s) → id ≤ net.begun
  injected : ∀ s, (job.stage s).isSource = true → ∀ id, Passed id (net.history s) → id ≤ (net.task s).injected
  completed : ∀ s, (net.task s).completed ≠ 0 → Passed (net.task s).completed (net.history s)
  shown : ∀ s e id, .marker id ∈ atEdge e (taken (net.history s)) → net.active = some id →
    Passed id (net.history s) ∧ ((job.stage s).isParticipant = true → ∃ ack ∈ seen, ack.participant = s ∧ ack.id = id) ∨
      (net.task s).aligning = some id ∧ (net.task s).blocked e = true

/-- An acknowledgement says what its participant had processed, and made of it, before the barrier. -/
def Honest (net : Net S E τ) (ack : Ack S E τ) : Prop :=
  Passed ack.id (net.history ack.participant) ∧
    ack.processed = addressedData (taken (cutAt ack.id (net.history ack.participant))) ∧
    ∃ outs, runOk (job.network.step ack.participant) (job.init ack.participant) ack.processed = .ok (outs, ack.frozen)

variable {job}

namespace Tracked

variable {net : Net S E τ} {seen seen' : List (Ack S E τ)}

theorem of_task (h : net.Tracked job seen) {net' : Net S E τ} (ha : net'.active = net.active)
    (hbe : net'.begun = net.begun) (hh : net'.history = net.history)
    (ht : ∀ s, (net'.task s).injected = (net.task s).injected ∧ (net'.task s).completed = (net.task s).completed)
    (hali : ∀ s id, net.active = some id → (net.task s).aligning = some id →
      (net'.task s).aligning = some id ∧ (net'.task s).blocked = (net.task s).blocked) : net'.Tracked job seen := by
  refine ⟨?_, ?_, fun s => ?_, fun s => ?_, fun s e id hm hid => ?_⟩
  · rw [ha, hbe]
    exact h.active
  · rw [hh, hbe]
    exact h.passed
  · rw [hh, (ht s).1]
    exact h.injected s
  · rw [hh, (ht s).2]
    exact h.completed s
  · rw [hh] at hm ⊢
    rw [ha] at hid
    rcases h.shown s e id hm hid with hp | ⟨hal, hb⟩
    · exact .inl hp
    · exact .inr ⟨(hali s id hid hal).1, (hali s id hid hal).2 ▸ hb⟩

variable {en : Entry E Payload}

theorem advance [DecidableEq S] (h : net.Tracked job seen) {s : S}
    {mailbox : E → List (Item Payload)} (hse : ∀ ack ∈ seen, ack ∈ seen')
    (hpas : ∀ id, en.passed = some id → id ≤ net.begun)
    (hi : (job.stage s).isSource = true → (net.task s).injected ≤ t.injected ∧
      ∀ id, en.passed = some id → id ≤ t.injected)
    (hc : t.completed = (net.task s).completed ∨ en.passed = some t.completed)
    (hsh : ∀ e id, .marker id ∈ atEdge e (taken (net.history s ++ [en])) → net.active = some id →
      Passed id (net.history s ++ [en]) ∧
          ((job.stage s).isParticipant = true → ∃ ack ∈ seen', ack.participant = s ∧ ack.id = id) ∨
        t.aligning = some id ∧ t.blocked e = true) :
    Tracked job (Net.advance { net with mailbox } s t en) seen' := by
  refine ⟨h.active, fun s' id => ?_, fun s' => ?_, fun s' => ?_, fun s' e id => ?_⟩ <;> by_cases hs : s' = s
  · subst hs
    rw [advance_history_self, passed_append, passed_singleton]
    rintro (hp | hp)
    · exact h.passed s' id hp
    · exact hpas id hp
  · rw [advance_history_of_ne hs]
    exact h.passed s' id
  · subst hs
    rw [advance_history_self, advance_task_self]
    intro hso id hp
    rcases passed_append.mp hp with hp | hp
    · exact (h.injected s' hso id hp).trans (hi hso).1
    · exact (hi hso).2 id (passed_singleton.mp hp)
  · rw [advance_history_of_ne hs, advance_task_of_ne hs]
    exact h.injected s'
  · subst hs
    rw [advance_history_self, advance_task_self]
    intro hne
    rcases hc with heq | heq
    · dsimp only at hne ⊢
      rw [heq] at hne ⊢
      exact passed_append.mpr (.inl (h.completed s' hne))
    · exact passed_append.mpr (.inr (passed_singleton.mpr heq))
  · rw [advance_history_of_ne hs, advance_task_of_ne hs]
    exact h.completed s'
  · subst hs
    rw [advance_history_self, advance_task_self]
    exact hsh e id
  · rw [advance_history_of_ne hs, advance_task_of_ne hs]
    intro hm hid
    rcases h.shown s' e id hm hid with ⟨hp, ha⟩ | hh
    · refine .inl ⟨hp, fun hpa => ?_⟩
      obtain ⟨ack, hme, ha⟩ := ha hpa
      exact ⟨ack, hse ack hme, ha⟩
    · exact .inr hh

theorem shown_append (h : net.Tracked job seen) {s : S}
    (hs : ∀ ack ∈ seen, ack ∈ seen') {id : ℕ} (hm : .marker id ∈ atEdge e (taken (net.history s)))
    (hid : net.active = some id)
    (hk : (net.task s).aligning = some id → (net.task s).blocked e = true →
      Passed id [en] ∧ (job.stage s).isUnion = true ∨ t.aligning = some id ∧ t.blocked e = true) :
    Passed id (net.history s ++ [en]) ∧
        ((job.stage s).isParticipant = true → ∃ ack ∈ seen', ack.participant = s ∧ ack.id = id) ∨
      t.aligning = some id ∧ t.blocked e = true := by
  rcases h.shown s e id hm hid with ⟨hp, ha⟩ | ⟨hal, hb⟩
  · refine .inl ⟨passed_append.mpr (.inl hp), fun hpa => ?_⟩
    obtain ⟨ack, hme, ha⟩ := ha hpa
    exact ⟨ack, hs ack hme, ha⟩
  · rcases hk hal hb with ⟨hp, hu⟩ | hh
    · refine .inl ⟨passed_append.mpr (.inr hp), fun hpa => ?_⟩
      simp [Stage.isParticipant_of_isUnion hu] at hpa
    · exact .inr hh

end Tracked

/-! ### Steps -/

variable (job)

/-- What holds along a run. -/
structure Inv (net : Net S E τ) (seen : List (Ack S E τ)) : Prop where
  streams : net.Streams job
  aligned : net.Aligned job
  tracked : net.Tracked job seen
  honest : ∀ ack ∈ seen, net.Honest job ack

theorem inv_start : Inv job job.startNet [] where
  streams := ⟨fun s => .start, fun e => rfl, fun s x hx => by simp [Job.startNet, Job.startTask] at hx⟩
  aligned := by
    refine ⟨fun s e h => by simp [Job.startNet, Job.startTask] at h, fun s hs => ?_, fun s _ => rfl,
      fun s time ht => ?_⟩
    · have hne : job.inputs s ≠ [] := fun h => by simp [(job.isSource_iff s).mpr h] at hs
      obtain ⟨i, hi⟩ := exists_mem_of_ne_nil _ hne
      exact ⟨i, hi, rfl⟩
    · simp only [Job.startNet, Job.startTask, Job.init] at ht
      split at ht <;> cases ht
      exact UnionTime.settled_start _
  tracked := ⟨by simp [Job.startNet], by simp [Job.startNet, Passed], by simp [Job.startNet, Passed],
    by simp [Job.startNet, Job.startTask], by simp [Job.startNet]⟩
  honest := by simp

variable {job}

variable [DecidableEq S]

namespace Does

variable {net net' : Net S E τ} {a : Action S E} {seen acks : List (Ack S E τ)}

section

variable (hd : Does job net a acks net')

include hd

/-- **A step keeps the streams.** -/
theorem streams (hs : net.Streams job) (ha : net.Aligned job) (ht : net.Tracked job seen) : net'.Streams job := by
  cases hd with
  | idle => exact hs
  | fails | begins | abandons => exact ⟨hs.lawful, hs.edges, hs.wired⟩
  | @publishes s e x rest hpe =>
    -- the item moves from the front of what is pending to the end of the mailbox
    obtain rfl : job.sender e = s := job.mem_outputs.mp (hs.wired s (e, x) (by simp [hpe]))
    refine ⟨fun s' => ?_, fun e' => ?_, fun s' => ?_⟩
    · obtain rfl | h := eq_or_ne s' (job.sender e)
      · simpa using hs.lawful _
      · simpa [h] using hs.lawful s'
    · have he := hs.edges e'
      obtain rfl | h := eq_or_ne e' e
      · simpa [hpe, atEdge_cons] using he
      · by_cases hse : job.sender e' = job.sender e
        · rw [hse] at he ⊢
          simpa [h, hpe, atEdge_cons, Ne.symm h] using he
        · simpa [h, hse] using he
    · obtain rfl | h := eq_or_ne s' (job.sender e)
      · intro y hy
        exact hs.wired _ y (by simp [hpe] at hy ⊢; exact .inr hy)
      · simpa [h] using hs.wired s'
  | @looks s hu =>
    have hta : ∀ s', ((Function.update net.task s ((net.task s).look net.active)) s').state = (net.task s').state ∧
        ((Function.update net.task s ((net.task s).look net.active)) s').pending = (net.task s').pending := by
      intro s'
      obtain rfl | h := eq_or_ne s' s
      · rcases Task.look_cases net.active (net.task s') with hl | ⟨-, hl⟩ <;> simp [hl]
      · simp [h]
    exact ⟨fun s' => (hta s').1 ▸ hs.lawful s', fun e => (hta _).2 ▸ hs.edges e, fun s' => (hta s').2 ▸ hs.wired s'⟩
  | @emits s outs hso hpe hwi =>
    refine hs.advance hpe (.emitted ((job.isSource_iff s).mp hso)) ?_ fun e => rfl
    intro x hx
    obtain ⟨y, hy, rfl⟩ := List.mem_map.mp hx
    exact hwi y hy
  | @injects s id hso hpe hn hb =>
    have hfr : ¬ Passed id (net.history s) := fun hp => absurd (ht.injected s hso id hp) (by omega)
    refine hs.advance (t := { net.task s with injected := id }) hpe
      (.injected ((job.isSource_iff s).mp hso) hfr) ?_ fun e => rfl
    intro x hx
    obtain ⟨y, hy, rfl⟩ := List.mem_map.mp hx
    exact hy
  | @works e p rest outs state hm hpe ho hw =>
    refine hs.advance hpe (.data (job.mem_inputs.mpr rfl) hw) ?_ (atEdge_append_pop hm)
    intro x hx
    obtain ⟨y, hy, rfl⟩ := List.mem_map.mp hx
    exact job.receive_outputs hw y hy
  | @replies e id rest forward t hm hpe ho hr =>
    have hf := Replies.follows ha hr
    refine hs.advance (t := { t with polling := false }) hpe hf ?_ (atEdge_append_pop hm)
    intro x hx
    split_ifs at hx
    · obtain ⟨y, hy, rfl⟩ := List.mem_map.mp hx
      exact hy
    · simp at hx

/-- **A step keeps the alignment.** -/
theorem aligned (ha : net.Aligned job) : net'.Aligned job := by
  cases hd with
  | idle => exact ha
  | fails | begins | abandons => exact ⟨ha.blocked, ha.opened, ha.single, ha.settled⟩
  | @publishes s e x rest hp =>
    refine ha.of_task rfl fun s' => ?_
    obtain rfl | h := eq_or_ne s' s
    · simp
    · simp [h]
  | @looks s hu =>
    rcases Task.look_cases net.active (net.task s) with hl | ⟨-, hl⟩
    · refine ha.of_task rfl fun s' => ?_
      obtain rfl | h := eq_or_ne s' s
      · simp [hl]
      · simp [h]
    · rw [hl]
      refine ⟨fun s' => ?_, fun s' hs' => ?_, fun s' => ?_, fun s' => ?_⟩ <;> by_cases h : s' = s
      · subst h
        simp
      · simpa [h] using ha.blocked s'
      · subst h
        obtain ⟨i, hi, -⟩ := ha.opened s' hs'
        exact ⟨i, hi, by simp⟩
      · simpa [h] using ha.opened s' hs'
      · subst h
        simp
      · simpa [h] using ha.single s'
      · subst h
        simpa [Task.Settled] using ha.settled s'
      · simpa [h] using ha.settled s'
  | @emits s outs hs hp hwi =>
    have hc := ha.unblocked_of_single (Stage.isUnion_of_isSource hs)
    exact ha.advance (fun e he => by simp [hc e] at he) (ha.opened s) (ha.single s) (ha.settled s)
  | @injects s id hs hp hn hbe =>
    have hc := ha.unblocked_of_single (Stage.isUnion_of_isSource hs)
    exact ha.advance (t := { net.task s with injected := id }) (fun e he => by simp [hc e] at he) (ha.opened s)
      (ha.single s) (ha.settled s)
  | @works e p rest outs state hm hp ho hw =>
    refine ha.advance (t := { net.task (job.receiver e) with state, polling := false })
      (fun e' he' => ha.blocked_of_taken rfl (ha.unblocked ho) he') (ha.opened _) (ha.single _) ?_
    rintro time rfl
    exact job.settled_receive hw
  | @replies e id rest forward t hm hp ho hr =>
    have hb := ha.unblocked ho
    refine ha.advance (t := { t with polling := false }) ?_ ?_ ?_ ?_
    · intro e' he'
      cases hr with
      | dropped | passed => exact ha.blocked_of_taken rfl hb he'
      | whole => simp at he'
      | held hu hac hal hop =>
        refine ⟨id, rfl, ?_⟩
        obtain rfl | hee := eq_or_ne e' e
        · simp [atEdge_cons]
        · have hbl : (net.task (job.receiver e)).blocked e' = true := by simpa [hee] using he'
          obtain ⟨x, hx, hla⟩ := ha.blocked _ e' hbl
          rw [hal x hx] at hla
          simpa [atEdge_cons, Ne.symm hee] using hla
    · intro hs
      cases hr with
      | dropped | passed => exact ha.opened _ hs
      | held _ _ _ hop => exact hop
      | whole => exact ⟨e, job.mem_inputs.mpr rfl, rfl⟩
    · intro hsi
      cases hr with
      | dropped | passed => exact ha.single _ hsi
      | held hu => simp [hsi] at hu
      | whole hu => simp [hsi] at hu
    · cases hr with
      | dropped | passed | held | whole => exact ha.settled _

/-- **A step keeps track of the barriers.** -/
theorem tracked (hs : net.Streams job) (ht : net.Tracked job seen) : net'.Tracked job (seen ++ acks) := by
  have hse : ∀ ack ∈ seen, ack ∈ seen ++ acks := fun ack hac => mem_append_left _ hac
  cases hd with
  | idle => simpa using ht
  | fails =>
    rw [append_nil]
    exact ht.of_task rfl rfl rfl (fun s => ⟨rfl, rfl⟩) fun s id _ h => ⟨h, rfl⟩
  | begins hno hid =>
    refine ⟨?_, fun s id' hp => (ht.passed s id' hp).trans hid.le, ht.injected, ht.completed, fun s e id' hm hi' => ?_⟩
    · rintro _ ⟨⟩
      exact ⟨rfl, by omega⟩
    · -- a barrier of this checkpoint cannot have been seen yet
      cases hi'
      exact absurd (ht.passed _ _ (hs.passed_of_taken hm)) (by omega)
  | abandons =>
    exact ⟨by simp, ht.passed, ht.injected, ht.completed, by simp⟩
  | @publishes s e x rest hpe =>
    rw [append_nil]
    have hta : ∀ s', ∃ pending, Function.update net.task s { net.task s with pending := rest } s' =
        { net.task s' with pending } := by
      intro s'
      obtain rfl | h := eq_or_ne s' s
      · exact ⟨rest, by simp⟩
      · exact ⟨(net.task s').pending, by simp [h]⟩
    refine ht.of_task rfl rfl rfl (fun s' => ?_) fun s' id _ h => ?_
    · obtain ⟨pending, heq⟩ := hta s'
      simp [heq]
    · obtain ⟨pending, heq⟩ := hta s'
      simp [heq, h]
  | @looks s hu =>
    rw [append_nil]
    refine ht.of_task rfl rfl rfl (fun s' => ?_) fun s' id ha hal => ?_
    · obtain rfl | h := eq_or_ne s' s
      · rcases Task.look_cases net.active (net.task s') with hl | ⟨-, hl⟩ <;> simp [hl]
      · simp [h]
    · obtain rfl | h := eq_or_ne s' s
      · -- the alignment is that of the active checkpoint, so it is kept
        rcases Task.look_cases net.active (net.task s') with hl | ⟨⟨id', hi', hne⟩, -⟩
        · simp [hl, hal]
        · rw [hal] at hi'
          exact absurd (Option.some.inj hi' ▸ ha) hne
      · simp [h, hal]
  | @emits s outs hso hpe hw =>
    refine ht.advance hse (by simp) (fun _ => ⟨le_rfl, by simp⟩) (.inl rfl) fun e id hm hid => ?_
    exact ht.shown_append hse (by simpa using hm) hid fun hal hb => .inr ⟨hal, hb⟩
  | @injects s id hso hpe hn hbe =>
    refine ht.advance (t := { net.task s with injected := id }) hse ?_ (fun _ => ⟨hn.le, ?_⟩) (.inl rfl)
      fun e id' hm hid => ?_
    · rintro _ ⟨⟩
      exact hbe
    · rintro _ ⟨⟩
      exact le_rfl
    · exact ht.shown_append hse (by simpa using hm) hid fun hal hb => .inr ⟨hal, hb⟩
  | @works e p rest outs state hma hpe ho hwo =>
    refine ht.advance (t := { net.task (job.receiver e) with state, polling := false }) hse (by simp)
      (fun _ => ⟨le_rfl, by simp⟩) (.inl rfl) fun e' id hm hid => ?_
    refine ht.shown_append hse ?_ hid fun hal hb => .inr ⟨hal, hb⟩
    by_cases h : e = e' <;> simpa [atEdge_cons, h] using hm
  | @replies e id rest forward t hma hpe ho hr =>
    have hbe : id ≤ net.begun := ht.passed _ id (hs.passed_of_mailbox (e := e) (by simp [hma]))
    refine ht.advance (t := { t with polling := false }) hse ?_ ?_ ?_ ?_
    · intro id' hi'
      split_ifs at hi'
      exact Option.some.inj hi' ▸ hbe
    · intro hso
      simp [job.isSource_receiver e] at hso
    · cases hr with
      | dropped | passed | held => exact .inl rfl
      | whole => exact .inr rfl
    · intro e' id' hm hi'
      -- the barrier was there before, or is the one just taken
      have hm' : .marker id' ∈ atEdge e' (taken (net.history (job.receiver e))) ∨ e' = e ∧ id' = id := by
        rw [taken_append, atEdge_append, mem_append] at hm
        refine hm.imp_right fun hla => ?_
        have := (mem_atEdge e').mp hla
        simpa using this
      rcases hm' with hm' | ⟨rfl, rfl⟩
      · refine ht.shown_append hse hm' hi' fun hal hb => ?_
        cases hr with
        | dropped | passed => exact .inr ⟨hal, hb⟩
        | held hu ha hali hop =>
          obtain rfl := hali id' hal
          refine .inr ⟨rfl, ?_⟩
          by_cases hee : e' = e
          · simp [hee]
          · simpa [hee] using hb
        | whole hu ha hali hall =>
          obtain rfl := hali id' hal
          exact .inl ⟨by simp, hu⟩
      · obtain ⟨hlate, hpo⟩ := ht.active id' hi'
        cases hr with
        | dropped hlat =>
          -- the union has this barrier behind it, as no later one has begun
          obtain ⟨hu, hle⟩ := hlat hi'
          have hpas := ht.completed (job.receiver e') (by omega)
          have hla := ht.passed _ _ hpas
          obtain heq : (net.task (job.receiver e')).completed = id' := by omega
          refine .inl ⟨passed_append.mpr (.inl (heq ▸ hpas)), fun hpa => ?_⟩
          simp [Stage.isParticipant_of_isUnion hu] at hpa
        | passed =>
          refine .inl ⟨passed_append.mpr (.inr (by simp)), fun hpa => ?_⟩
          rw [if_pos ⟨hpa, hi'⟩]
          exact ⟨_, mem_append_right _ (List.mem_singleton.mpr rfl), rfl, rfl⟩
        | held => exact .inr ⟨rfl, by simp⟩
        | whole hu =>
          refine .inl ⟨passed_append.mpr (.inr (by simp)), fun hpa => ?_⟩
          simp [Stage.isParticipant_of_isUnion hu] at hpa

theorem history_grows (s : S) : net.history s <+: net'.history s := by
  have ha : ∀ (mailbox : E → List (Item Payload)) (s' : S) (t : Task E τ) (en : Entry E Payload),
      net.history s <+: (Net.advance { net with mailbox } s' t en).history s := by
    intro mailbox s' t en
    obtain rfl | h := eq_or_ne s s'
    · rw [advance_history_self]
      exact prefix_append _ _
    · exact ⟨[], by rw [append_nil, advance_history_of_ne h]⟩
  cases hd with
  | idle | fails | begins | abandons | publishes | looks => exact prefix_rfl
  | emits | injects => exact ha net.mailbox ..
  | works | replies => exact ha ..

/-- **Acknowledgements are honest**, when they are made and from then on. -/
theorem honest (hs : net.Streams job) (hs' : net'.Streams job)
    (hh : ∀ ack ∈ seen, net.Honest job ack) : ∀ ack ∈ seen ++ acks, net'.Honest job ack := by
  intro ack ha
  rcases List.mem_append.mp ha with ha | ha
  · obtain ⟨hp, hpr, hru⟩ := hh ack ha
    obtain ⟨more, hm⟩ := hd.history_grows ack.participant
    rw [Honest, ← hm, hp.cutAt_append]
    exact ⟨passed_append.mpr (.inl hp), hpr, hru⟩
  · cases hd with
    | idle | fails | begins | abandons | publishes | looks | emits | injects | works => simp at ha
    | @replies e id rest forward t hma hpe hop hr =>
      split_ifs at ha with hpa
      swap
      · simp at ha
      obtain rfl := List.mem_singleton.mp ha
      have hsi : (job.stage (job.receiver e)).isUnion = false := by
        by_contra hu
        simp [Stage.isParticipant_of_isUnion (by simpa using hu)] at hpa
      -- only a stage with one input acknowledges, and it passes the barrier on
      cases hr with
      | dropped hl => simp [hsi] at hl; exact absurd hpa.2 hl
      | held hu => simp [hsi] at hu
      | whole hu => simp [hsi] at hu
      | passed =>
        have ho := hs'.connected.passings_le_one (job.receiver e) id
        rw [advance_history_self] at ho
        have hn := not_passed_of_passings rfl ho
        have hin : job.network.inputs (job.receiver e) ≠ [] := ne_nil_of_mem (job.mem_inputs.mpr rfl)
        rw [Honest, advance_history_self, cutAt_concat hn rfl]
        exact ⟨passed_append.mpr (.inr (by simp)), rfl, _, (hs.lawful _).replay hin⟩

end

end Does

/-! ### Runs -/

theorem Does.inv {net' : Net S E τ} {a : Action S E} {seen acks : List (Ack S E τ)} (hd : Does job net a acks net')
    (h : Inv job net seen) : Inv job net' (seen ++ acks) :=
  have hs := hd.streams h.streams h.aligned h.tracked
  ⟨hs, hd.aligned h.aligned, hd.tracked h.streams h.tracked, hd.honest h.streams hs h.honest⟩

variable {actions : List (Action S E)}

/-- **Along every run** the invariants hold. -/
theorem run_invariant {G : Net S E τ → Action S E → Prop}
    (hG : Machine.Along (step job) G job.startNet actions) :
    Inv job (run (step job) job.startNet actions).2 (run (step job) job.startNet actions).1 :=
  run_induction (I := fun seen net => Inv job net seen)
    (fun _ _ a _ h => (step_does job h.aligned.settled a).inv h) (inv_start job) hG

theorem run_failed
    (hG : Machine.Along (step job) (fun net a => net.Looked job a) job.startNet actions) (s : S) (id : ℕ)
    (err : SparrowError) : (run (step job) job.startNet actions).2.failed ≠ some (s, .marker id, err) := by
  have hr := run_induction
    (I := fun seen net => Inv job net seen ∧ ∀ s id err, net.failed ≠ some (s, .marker id, err))
    (fun seen net a hl h => ?_) ⟨inv_start job, by simp [Job.startNet]⟩ hG
  · exact hr.2 s id err
  · have hd := step_does job h.1.aligned.settled a
    refine ⟨hd.inv h.1, ?_⟩
    generalize (net.step job a).1 = acks, (net.step job a).2 = net' at hd
    cases hd with
    | idle | begins | abandons | publishes | looks | emits | injects | works | replies => exact h.2
    | fails hx =>
      rintro s id err heq
      obtain ⟨-, rfl, -⟩ : _ ∧ _ ∧ _ := by simpa using heq
      exact hx id rfl hl

end Net

end Sparrow.Runtime.Dag
