import Sparrow.Runtime.GraphInvariant

/-!
# Barrier alignment yields a consistent cut

The theorem about runs of a graph job: tasks scheduled in any order, checkpoints begun one
at a time, sources injecting their barriers at any point, checkpoints dropped at any time.
-/

namespace Sparrow.Runtime.Dag

open Library Model Machine

variable {S E τ : Type} [DecidableEq E]

namespace Net

/-- What a stage took before it passed on the barrier of a checkpoint. -/
def tookBefore (net : Net S E τ) (id : ℕ) (s : S) : List (E × Payload) :=
  addressedData (taken (cutAt id (net.history s)))

/-- What a stage produced before it passed on the barrier; for a source, what it emitted before it
injected it. -/
def producedBefore (net : Net S E τ) (id : ℕ) (s : S) : List (E × Payload) :=
  addressedData (made (cutAt id (net.history s)))

variable (job : Job S E τ) (net : Net S E τ)

/-- Nothing can move: everything is published, the unions have looked, and a mailbox that may be read
is empty. -/
structure Quiet : Prop where
  published : ∀ s, (net.task s).pending = []
  looked : ∀ s, ∀ id ∈ (net.task s).aligning, net.active = some id
  read : ∀ e, net.mailbox e = [] ∨ (net.task (job.receiver e)).blocked e = true

/-- What the alignment of barriers promises of a run that has made the acknowledgements `acks`. -/
structure CutConsistently (acks : List (Ack S E τ)) : Prop where
  /-- A participant acknowledges what it has processed, and what it has made of it. -/
  acknowledged : ∀ ack ∈ acks, ack.processed = net.tookBefore ack.id ack.participant ∧
    ∃ outs, runOk (job.network.step ack.participant) (job.init ack.participant) ack.processed = .ok (outs, ack.frozen)
  /-- Upstream of it, every stage has passed the barrier on, and took before it exactly what follows from
  what the sources emitted before it. -/
  cut : ∀ ack ∈ acks, ∀ s, job.Upstream s ack.participant → Passed ack.id (net.history s) ∧
    job.network.DerivedAt (net.tookBefore ack.id) (net.producedBefore ack.id) s
  once : ∀ id, (∀ s, passings id (net.history s) ≤ 1) ∧
    ∀ e, (atEdge e (made (net.history (job.sender e)))).countP (Item.isMarker id) ≤ 1
  /-- What was produced on an edge was taken from it, is in the mailbox or is to be published, in order. -/
  conserved : ∀ e, atEdge e (made (net.history (job.sender e))) =
    atEdge e (taken (net.history (job.receiver e))) ++ net.mailbox e ++ atEdge e (net.task (job.sender e)).pending
  unaffected : ∀ s, job.inputs s ≠ [] → runOk (job.network.step s) (job.init s) (net.processed s) =
    .ok (addressedData (made (net.history s)), (net.task s).state)
  released : ∀ s e, ((net.task s).look net.active).blocked e = true → (net.task s).aligning.isSome ∧
    (net.task s).aligning = net.active
  harmless : ∀ s id err, net.failed ≠ some (s, .marker id, err)
  completes : net.Quiet job → ∀ id ∈ net.active,
    (∀ s, (job.stage s).isSource = true → Passed id (net.history s)) →
      ∀ s, Passed id (net.history s) ∧
        ((job.stage s).isParticipant = true → ∃ ack ∈ acks, ack.participant = s ∧ ack.id = id)

variable {job net} {acks : List (Ack S E τ)}

section

variable (h : Inv job net acks)

include h

theorem Inv.released {s : S} {e : E} (hb : ((net.task s).look net.active).blocked e = true) :
    (net.task s).aligning.isSome ∧ (net.task s).aligning = net.active := by
  rcases Task.look_cases net.active (net.task s) with hl | ⟨-, hl⟩
  · obtain ⟨id, hid, -⟩ := h.aligned.blocked s e (by simpa [hl] using hb)
    have hal : (net.task s).aligning = some id := hid
    refine ⟨by simp [hal], ?_⟩
    -- otherwise the look would have cleared it
    by_contra hne
    have hl' : ((net.task s).look net.active).blocked e = false := by
      rw [Task.look, if_pos]
      simpa [hal] using fun h => hne (hal.trans h.symm)
    simp [hl'] at hb
  · simp [hl] at hb

variable {id : ℕ}

theorem Inv.taken_of_quiet (hq : net.Quiet job) {e : E}
    (hp : Passed id (net.history (job.sender e))) (hb : (net.task (job.receiver e)).blocked e = false) :
    .marker id ∈ atEdge e (taken (net.history (job.receiver e))) := by
  have hm : .marker id ∈ atEdge e (made (net.history (job.sender e))) := by
    have hc := (h.streams.lawful (job.sender e)).countP_made (job.mem_outputs.mpr rfl) id
    obtain ⟨en, hen, hpa⟩ := hp
    have hpo : 0 < passings id (net.history (job.sender e)) := List.countP_pos_iff.mpr ⟨en, hen, by simpa using hpa⟩
    rw [← hc] at hpo
    obtain ⟨x, hx, hma⟩ := List.countP_pos_iff.mp hpo
    exact Item.isMarker_iff.mp hma ▸ hx
  have he : net.mailbox e = [] := (hq.read e).resolve_right (by simp [hb])
  rw [h.streams.edges e, he, hq.published] at hm
  simpa using hm

/-- **A checkpoint that stays active is passed on by all stages.** -/
theorem Inv.passed_of_quiet (hq : net.Quiet job) (hid : net.active = some id)
    (hso : ∀ s, (job.stage s).isSource = true → Passed id (net.history s)) (s : S) :
    Passed id (net.history s) := by
  -- along the edges
  induction hr : job.rank s using Nat.strong_induction_on generalizing s with
  | _ r ih =>
    cases hs : (job.stage s).isSource with
    | true => exact hso s hs
    | false =>
      by_contra hn
      -- then all inputs are blocked, which a union does not leave behind
      obtain ⟨i, hi, ho⟩ := h.aligned.opened s hs
      obtain rfl := job.mem_inputs.mp hi
      have hm := h.taken_of_quiet hq (ih _ (hr ▸ job.rank_lt i) _ rfl) ho
      rcases h.tracked.shown _ i id hm hid with ⟨hp, -⟩ | ⟨-, hb⟩
      · exact hn hp
      · simp [ho] at hb

theorem Inv.acked_of_passed (hid : net.active = some id) {s : S}
    (hp : Passed id (net.history s)) (hpa : (job.stage s).isParticipant = true) :
    ∃ ack ∈ acks, ack.participant = s ∧ ack.id = id := by
  have hs : (job.stage s).isSource = false := by
    cases hst : job.stage s <;> simp_all [Stage.isParticipant, Stage.isSource]
  have hu : (job.stage s).isUnion = false := by
    cases hst : job.stage s <;> simp_all [Stage.isParticipant, Stage.isUnion]
  obtain ⟨i, hi, -⟩ := h.aligned.opened s hs
  have hm := (h.streams.lawful s).marker_mem_of_passed hp hi
  rcases h.tracked.shown s i id hm hid with ⟨-, ha⟩ | ⟨hal, -⟩
  · exact ha hpa
  · simp [h.aligned.single s hu] at hal

theorem Inv.cutConsistently (hf : ∀ s id err, net.failed ≠ some (s, .marker id, err)) :
    net.CutConsistently job acks where
  acknowledged ack ha := (h.honest ack ha).2
  cut ack ha _ hs := h.streams.connected.consistent (h.honest ack ha).1 hs
  once id := ⟨fun s => h.streams.connected.passings_le_one s id, fun e => h.streams.connected.countP_made_le_one e id⟩
  conserved := h.streams.edges
  unaffected _ hs := (h.streams.lawful _).replay hs
  released _ _ hb := h.released hb
  harmless := hf
  completes hq _ hid hso s :=
    have hp := h.passed_of_quiet hq hid hso s
    ⟨hp, h.acked_of_passed hid hp⟩

end

end Net

/-- **Barrier alignment yields a consistent cut.** In every run in which no union takes the barrier of
the active checkpoint while it still aligns a dropped one, the promises of the alignment hold in every
state that is reached. -/
theorem barriers_cut_consistently [DecidableEq S] (job : Job S E τ) (actions : List (Action S E))
    (hlooked : Machine.Along (Net.step job) (fun net a => net.Looked job a) job.startNet actions) :
    (run (Net.step job) job.startNet actions).2.CutConsistently job
      (run (Net.step job) job.startNet actions).1 :=
  (Net.run_invariant hlooked).cutConsistently (Net.run_failed hlooked)

/-- **A failure at a barrier costs the job, never a cut.** In every run whatsoever, of what is acknowledged everything
upstream is cut consistently, and on every edge nothing is lost, repeated or overtaken. -/
theorem cut_in_every_run [DecidableEq S] (job : Job S E τ) (actions : List (Action S E)) :
    let acks := (run (Net.step job) job.startNet actions).1
    let net := (run (Net.step job) job.startNet actions).2
    (∀ ack ∈ acks, ack.processed = net.tookBefore ack.id ack.participant ∧
      ∀ s, job.Upstream s ack.participant → Passed ack.id (net.history s) ∧
        job.network.DerivedAt (net.tookBefore ack.id) (net.producedBefore ack.id) s) ∧
    (∀ id s, passings id (net.history s) ≤ 1) ∧
    ∀ e, atEdge e (made (net.history (job.sender e))) =
      atEdge e (taken (net.history (job.receiver e))) ++ net.mailbox e ++
        atEdge e (net.task (job.sender e)).pending := by
  have hi := Net.run_invariant (along_of_forall (P := fun _ => True) (fun a (_ : a ∈ actions) => trivial) job.startNet)
  refine ⟨fun ack ha => ⟨(hi.honest ack ha).2.1, fun s hs => ?_⟩, fun id s => ?_, hi.streams.edges⟩
  · exact hi.streams.connected.consistent (hi.honest ack ha).1 hs
  · exact hi.streams.connected.passings_le_one s id

/-- The stages of a job with one union. -/
inductive SampleStage where
  | left
  | right
  | union
  | sink
  deriving DecidableEq

/-- Its edges. -/
inductive SampleEdge where
  | left
  | right
  | merged
  deriving DecidableEq

/-- Two sources, their union, and a sink that keeps what it gets. -/
def sampleJob : Job SampleStage SampleEdge (List Payload) where
  inputs
    | .left | .right => []
    | .union => [.left, .right]
    | .sink => [.merged]
  outputs
    | .left => [.left]
    | .right => [.right]
    | .union => [.merged]
    | .sink => []
  sender
    | .left => .left
    | .right => .right
    | .merged => .union
  receiver
    | .left | .right => .union
    | .merged => .sink
  mem_inputs := by rintro (_ | _ | _ | _) (_ | _ | _) <;> simp
  mem_outputs := by rintro (_ | _ | _ | _) (_ | _ | _) <;> simp
  nodup_outputs := by rintro (_ | _ | _ | _) <;> simp
  rank
    | .left | .right => 0
    | .union => 1
    | .sink => 2
  rank_lt := by rintro (_ | _ | _) <;> simp
  stage
    | .left | .right => .source
    | .union => .unionAll
    | .sink => .operator { work := fun st p => .ok ([], st ++ [p]), participant := true, late := .drops }
  start := fun _ => []
  isSource_iff := by rintro (_ | _ | _ | _) <;> simp [Stage.isSource]
  one_input := by rintro (_ | _ | _ | _) <;> simp [Stage.isSource, Stage.isUnion]
  wired := by
    rintro (_ | _ | _ | _) op hop st p outs st' hwork <;> cases hop
    cases hwork
    simp

/-- The first checkpoint reaches one input of the union. -/
def sampleBlock : List (Action SampleStage SampleEdge) :=
  [.begin 1, .inject .left 1, .publish .left, .look .union, .take .left]

/-- It is dropped, the union looks, and a second one goes through behind a row. -/
def sampleSecond : List (Action SampleStage SampleEdge) :=
  [.abandon, .begin 2, .look .union,
    .emit .left [(.left, .batch { schema := { fields := [] }, rows := [{ values := [.int64 7] }] })], .publish .left,
    .inject .left 2, .publish .left, .inject .right 2, .publish .right, .take .left, .publish .union, .look .union,
    .take .left, .look .union, .take .right, .publish .union, .take .merged, .take .merged]

theorem sampleSecond_cut :
    Machine.Along (Net.step sampleJob) (fun net a => net.Looked sampleJob a) sampleJob.startNet
        (sampleBlock ++ sampleSecond) ∧
      (run (Net.step sampleJob) sampleJob.startNet (sampleBlock ++ sampleSecond)).1.map
        (fun ack => (ack.id, ack.processed.length)) = [(2, 1)] ∧
      (run (Net.step sampleJob) sampleJob.startNet (sampleBlock ++ sampleSecond)).2.CutConsistently sampleJob
        (run (Net.step sampleJob) sampleJob.startNet (sampleBlock ++ sampleSecond)).1 :=
  have hlooked : Machine.Along (Net.step sampleJob) (fun net a => net.Looked sampleJob a) sampleJob.startNet
      (sampleBlock ++ sampleSecond) := by decide
  ⟨hlooked, by decide, barriers_cut_consistently sampleJob _ hlooked⟩

/-- **A dropped checkpoint fails a later one.** The union has looked at the token and finds it not
cancelled; before it polls its inputs, the checkpoint is dropped, the next one begins, and its barrier
arrives on the other input. -/
theorem conflict_after_drop : (run (Net.step sampleJob) sampleJob.startNet
      (sampleBlock ++ [.look .union, .abandon, .begin 2, .inject .right 2, .publish .right, .take .right])).2.failed =
        some (.union, .marker 2, invalid "conflicting active graph barrier") := rfl

end Sparrow.Runtime.Dag
