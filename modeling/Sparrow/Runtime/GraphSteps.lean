import Sparrow.Runtime.GraphTasks

/-!
# What a step of a graph job can do

Every step of a run is one of the cases of `Does`: nothing, a failure, a step of the
registry, of a mailbox or of one stage. The invariants of `GraphInvariant` are proved from
these cases alone.

## What is proved

* `step_does` — every step is one of the cases.
* `Job.receive_outputs` — a stage publishes on its outputs only.
-/

namespace Sparrow.Runtime.Dag

open Library Model Function

variable {S E τ : Type}

/-! ### Payloads -/

variable {outs : List (E × Payload)} {p : Payload} {outputs : List E}

theorem router_outputs {publish : RowBatch → Result (List (E × Payload))} {ended ended' : Bool}
    (hpu : ∀ batch outs, publish batch = .ok outs → ∀ x ∈ outs, x.1 ∈ outputs)
    (h : router outputs publish ended p = .ok (outs, ended')) : ∀ x ∈ outs, x.1 ∈ outputs := by
  cases p with
  | batch batch =>
    simp only [router] at h
    split_ifs at h
    obtain ⟨published, hp, hr⟩ := bind_eq_ok.mp h
    obtain ⟨rfl, rfl⟩ : published = outs ∧ ended = ended' := by simpa using Except.ok.inj hr
    exact hpu batch _ hp
  | control control =>
    obtain ⟨rfl, -⟩ : outputs.map (fun e => (e, Payload.control control)) = outs ∧ _ := by
      simpa [router] using Except.ok.inj h
    intro x hx
    obtain ⟨e, he, rfl⟩ := List.mem_map.mp hx
    exact he

section Payloads

variable [DecidableEq E]

theorem route_outputs {mode : RouteMode} {cases : List (Plan.BoundExpr × E)} {default : E}
    {batch : RowBatch} (h : route outputs mode cases default batch = .ok outs) :
    ∀ x ∈ outs, x.1 ∈ outputs := by
  obtain ⟨masks, -, hr⟩ := bind_eq_ok.mp h
  cases hr
  intro x hx
  obtain ⟨port, hp, hs⟩ := List.mem_filterMap.mp hx
  dsimp only at hs
  split_ifs at hs
  cases hs
  exact hp

variable {st : TaskState τ}

theorem Job.receive_outputs (job : Job S E τ) {s : S} {st' : TaskState τ} {e : E}
    (h : job.receive s st e p = .ok (outs, st')) : ∀ x ∈ outs, x.1 ∈ job.outputs s := by
  have he : ∀ (f : E → E × Payload), (∀ e, (f e).1 = e) → ∀ x ∈ (job.outputs s).map f, x.1 ∈ job.outputs s := by
    intro f hf x hx
    obtain ⟨e', he', rfl⟩ := List.mem_map.mp hx
    rwa [hf]
  unfold Job.receive at h
  split at h
  · obtain ⟨⟨published, ended⟩, hr, hre⟩ := bind_eq_ok.mp h
    obtain ⟨rfl, -⟩ : published = outs ∧ _ := by simpa using Except.ok.inj hre
    refine router_outputs (fun batch outs ho => ?_) hr
    cases ho
    exact he _ fun _ => rfl
  · obtain ⟨⟨published, ended⟩, hr, hre⟩ := bind_eq_ok.mp h
    obtain ⟨rfl, -⟩ : published = outs ∧ _ := by simpa using Except.ok.inj hre
    exact router_outputs (fun _ _ => route_outputs) hr
  · obtain ⟨⟨published, time⟩, -, hre⟩ := bind_eq_ok.mp h
    obtain ⟨rfl, -⟩ : published.flatMap (fun p => (job.outputs s).map fun e => (e, p)) = outs ∧ _ := by
      simpa using Except.ok.inj hre
    intro x hx
    obtain ⟨p', -, hx⟩ := List.mem_flatMap.mp hx
    exact he _ (fun _ => rfl) x hx
  · rename_i op st₀ hs
    obtain ⟨⟨published, st₁⟩, hr, hre⟩ := bind_eq_ok.mp h
    obtain ⟨rfl, -⟩ : published = outs ∧ _ := by simpa using Except.ok.inj hre
    exact job.wired s op hs st₀ p published st₁ hr
  · simp at h

theorem Job.settled_receive (job : Job S E τ) {s : S} {e : E} {time : UnionTime}
    (h : job.receive s st e p = .ok (outs, .union time)) :
    time.Settled := by
  unfold Job.receive at h
  split at h
  · obtain ⟨⟨_, _⟩, -, hre⟩ := bind_eq_ok.mp h
    exact absurd (Except.ok.inj hre) (by simp)
  · obtain ⟨⟨_, _⟩, -, hre⟩ := bind_eq_ok.mp h
    exact absurd (Except.ok.inj hre) (by simp)
  · obtain ⟨⟨published, time'⟩, hr, hre⟩ := bind_eq_ok.mp h
    obtain ⟨-, rfl⟩ : _ ∧ time' = time := by simpa using Except.ok.inj hre
    exact UnionTime.settled_receive hr
  · obtain ⟨⟨_, _⟩, -, hre⟩ := bind_eq_ok.mp h
    exact absurd (Except.ok.inj hre) (by simp)
  · simp at h

end Payloads

/-! ### Barriers -/

def Task.Settled (t : Task E τ) : Prop := ∀ time, t.state = .union time → time.Settled

variable {t : Task E τ}

theorem Task.settle_of_settled (h : t.Settled) : t.settle = ([], t) := by
  unfold Task.settle
  cases hst : t.state with
  | union time => simp [UnionTime.settle_of_settled (h time hst), ← hst]
  | source | router | operator => rfl

theorem Job.isSource_receiver (job : Job S E τ) (e : E) : (job.stage (job.receiver e)).isSource = false := by
  rw [Bool.eq_false_iff, ne_eq, job.isSource_iff]
  exact List.ne_nil_of_mem (job.mem_inputs.mpr rfl)

section Barriers

variable [DecidableEq E] (job : Job S E τ)

inductive Replies (active : Option ℕ) (s : S) (t : Task E τ) (e : E) (id : ℕ) : Reply E τ → Prop where
  | dropped (hlate : active = some id → (job.stage s).isUnion = true ∧ id ≤ t.completed) :
      Replies active s t e id ⟨false, [], t⟩
  | passed (hsource : (job.stage s).isSource = false) (hunion : (job.stage s).isUnion = false) :
      Replies active s t e id ⟨true, [], t⟩
  | held (hunion : (job.stage s).isUnion = true) (hactive : active = some id) (haligning : ∀ x ∈ t.aligning, x = id)
      (hopen : ∃ i ∈ job.inputs s, update t.blocked e true i = false) :
      Replies active s t e id ⟨false, [], { t with aligning := some id, blocked := update t.blocked e true }⟩
  | whole (hunion : (job.stage s).isUnion = true) (hactive : active = some id) (haligning : ∀ x ∈ t.aligning, x = id)
      (hall : ∀ i ∈ job.inputs s, update t.blocked e true i = true) :
      Replies active s t e id
        ⟨true, [], { t with completed := id, aligning := none, blocked := fun _ => false }⟩

variable {active : Option ℕ}

/-- **What a stage does with a barrier**, if it does not fail. -/
theorem Job.barrier_replies {s : S} {e : E} {id : ℕ} {reply : Reply E τ}
    (hs : (job.stage s).isSource = false) (ht : t.Settled) (h : job.barrier active s t e id = .ok reply) :
    Replies job active s t e id reply := by
  -- one input: the barrier is passed on, or dropped because it is late
  have ho : ∀ forward : Bool, (job.stage s).isUnion = false → (active = some id → forward = true) →
      reply = ⟨forward, [], t⟩ → Replies job active s t e id reply := by
    rintro forward hu hac rfl
    cases forward with
    | true => exact .passed hs hu
    | false => exact .dropped fun h => absurd (hac h) Bool.false_ne_true
  unfold Job.barrier at h
  split at h
  · rename_i hst
    simp [hst, Stage.isSource] at hs
  · rename_i hst
    exact ho _ (by rw [hst]; rfl) (fun h => by simp [h]) (Except.ok.inj h).symm
  · rename_i hst
    exact ho _ (by rw [hst]; rfl) (fun h => by simp [h]) (Except.ok.inj h).symm
  · rename_i hst
    have hu : (job.stage s).isUnion = true := by rw [hst]; rfl
    unfold Job.align at h
    split_ifs at h with hd hc
    · cases h
      exact .dropped fun hac => ⟨hu, hd.resolve_right (by simp [hac])⟩
    · rw [not_or, not_not] at hd
      have hal : ∀ x ∈ t.aligning, x = id := by
        intro x hx
        by_contra hne
        exact hc (by simpa [show t.aligning = some x from hx] using hne)
      dsimp only at h
      by_cases ha : (job.inputs s).all (update t.blocked e true)
      · have hse := Task.settle_of_settled (t :=
          { t with completed := id, aligning := none, blocked := fun _ => false }) ht
        rw [if_pos ha, hse] at h
        cases h
        rw [ha]
        exact .whole hu hd.2 hal (by simpa using ha)
      · have hse := Task.settle_of_settled
          (t := { t with aligning := some id, blocked := update t.blocked e true }) ht
        rw [if_neg ha, hse] at h
        cases h
        rw [Bool.eq_false_iff.mpr ha]
        exact .held hu hd.2 hal (by simpa using ha)
  · rename_i op hst
    exact ho _ (by rw [hst]; rfl) (fun h => by simp [h]) (Except.ok.inj h).symm

theorem Job.barrier_error {s : S} {e : E} {id : ℕ} {err : SparrowError}
    (h : job.barrier active s t e id = .error err) : active = some id ∧ ∃ x ∈ t.aligning, x ≠ id := by
  unfold Job.barrier at h
  split at h
  · simp at h
  · simp at h
  · simp at h
  · unfold Job.align at h
    split_ifs at h with hd hc
    · rw [not_or, not_not] at hd
      obtain ⟨x, hx, hne⟩ := (Option.any_eq_true ..).mp hc
      exact ⟨hd.2, x, hx, by simpa using hne⟩
  · simp at h

end Barriers

/-! ### Steps -/

namespace Net

variable [DecidableEq S] [DecidableEq E] (job : Job S E τ)

/-- What a step can do. -/
inductive Does (net : Net S E τ) (a : Action S E) : List (Ack S E τ) → Net S E τ → Prop where
  | idle : Does net a [] net
  | fails {s : S} {x : Item Payload} {err : SparrowError} (hx : ∀ id, x = .marker id → ¬ net.Looked job a) :
      Does net a [] { net with failed := some (s, x, err) }
  | begins {id : ℕ} (hnone : net.active = none) (hid : net.begun < id) :
      Does net a [] { net with active := some id, begun := id }
  | abandons : Does net a [] { net with active := none }
  | publishes {s : S} {e : E} {x : Item Payload} {rest : List (E × Item Payload)}
      (hpending : (net.task s).pending = (e, x) :: rest) :
      Does net a [] { net with
        task := update net.task s { net.task s with pending := rest }
        mailbox := update net.mailbox e (net.mailbox e ++ [x]) }
  | looks {s : S} (hunion : (job.stage s).isUnion = true) :
      Does net a [] { net with task := update net.task s ((net.task s).look net.active) }
  | emits {s : S} {outs : List (E × Payload)} (hsource : (job.stage s).isSource = true)
      (hpending : (net.task s).pending = []) (hwired : ∀ x ∈ outs, x.1 ∈ job.outputs s) :
      Does net a [] (net.advance s (net.task s) ⟨none, asData outs, none⟩)
  | injects {s : S} {id : ℕ} (hsource : (job.stage s).isSource = true) (hpending : (net.task s).pending = [])
      (hnew : (net.task s).injected < id) (hbegun : id ≤ net.begun) :
      Does net a [] (net.advance s { net.task s with injected := id } ⟨none, markerOn id (job.outputs s), some id⟩)
  | works {e : E} {p : Payload} {rest : List (Item Payload)} {outs : List (E × Payload)} {state : TaskState τ}
      (hmail : net.mailbox e = .data p :: rest) (hpending : (net.task (job.receiver e)).pending = [])
      (hopen : (job.stage (job.receiver e)).isUnion = true → (net.task (job.receiver e)).blocked e = false)
      (hwork : job.receive (job.receiver e) (net.task (job.receiver e)).state e p = .ok (outs, state)) :
      Does net a [] ((net.pop e).advance (job.receiver e)
        { net.task (job.receiver e) with state, polling := false } ⟨some (e, .data p), asData outs, none⟩)
  | replies {e : E} {id : ℕ} {rest : List (Item Payload)} {forward : Bool} {t : Task E τ}
      (hmail : net.mailbox e = .marker id :: rest) (hpending : (net.task (job.receiver e)).pending = [])
      (hopen : (job.stage (job.receiver e)).isUnion = true → (net.task (job.receiver e)).blocked e = false)
      (hreply : Replies job net.active (job.receiver e) (net.task (job.receiver e)) e id ⟨forward, [], t⟩) :
      Does net a
        (if (job.stage (job.receiver e)).isParticipant ∧ net.active = some id then
          [{ participant := job.receiver e, id, frozen := (net.task (job.receiver e)).state,
             processed := net.processed (job.receiver e) }] else [])
        ((net.pop e).advance (job.receiver e) { t with polling := false }
          ⟨some (e, .marker id), if forward then markerOn id (job.outputs (job.receiver e)) else [],
            if forward then some id else none⟩)

/-- **The cases of a step.** -/
theorem step_does {net : Net S E τ} (hs : ∀ s, (net.task s).Settled) (a : Action S E) :
    Does job net a (net.step job a).1 (net.step job a).2 := by
  unfold step
  split_ifs with hf
  · exact .idle
  cases a with
  | begin id =>
    dsimp only
    split_ifs with h
    · exact .begins h.1 h.2
    · exact .idle
  | abandon => exact .abandons
  | emit s outs =>
    dsimp only
    split_ifs with h
    · exact .emits h.1 (List.isEmpty_iff.mp h.2.1) h.2.2
    · exact .idle
  | inject s id =>
    dsimp only
    split_ifs with h
    · exact .injects h.1 (List.isEmpty_iff.mp h.2.1) h.2.2.1 h.2.2.2
    · exact .idle
  | publish s =>
    dsimp only
    split
    · exact .idle
    · rename_i hp
      exact .publishes hp
  | look s =>
    dsimp only
    split_ifs with h
    · exact .looks h
    · exact .idle
  | take e =>
    dsimp only
    split
    · exact .idle
    rename_i x rest hm
    split_ifs with h
    swap
    · exact .idle
    have hp := List.isEmpty_iff.mp h.1
    have ho : (job.stage (job.receiver e)).isUnion = true → (net.task (job.receiver e)).blocked e = false :=
      fun hu => by simpa using (h.2 hu).2
    cases x with
    | data p =>
      simp only [handle]
      cases hw : job.receive (job.receiver e) (net.task (job.receiver e)).state e p with
      | error err => exact .fails (by simp)
      | ok r => exact .works hm hp ho hw
    | marker id =>
      simp only [handle]
      cases hb : job.barrier net.active (job.receiver e) (net.task (job.receiver e)) e id with
      | error err =>
        refine .fails fun id' _ hl => ?_
        obtain ⟨ha, x, hx, hne⟩ := job.barrier_error hb
        exact hne (hl x hx id ha (by simp [hm]))
      | ok reply =>
        have hr := job.barrier_replies (job.isSource_receiver e) (hs _) hb
        obtain ⟨forward, controls, t⟩ := reply
        obtain rfl : controls = [] := by cases hr <;> rfl
        simpa [asData] using Does.replies (a := .take e) hm hp ho hr

end Net

end Sparrow.Runtime.Dag
