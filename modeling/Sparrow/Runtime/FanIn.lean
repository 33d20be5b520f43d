import Sparrow.Runtime.JoinGathering
import Sparrow.Runtime.UnionGathering

/-!
# Durable fan-in is deterministic

What the union and the join of a durable graph send does not depend on the order in
which their ports are read: a round is gathered port by port, nothing is sent before all
ports have ended it, and whether it is refused does not depend on the order either.
-/

namespace Sparrow.Runtime

open Library Model JoinTask UnionTask

/-- **Durable fan-in is deterministic.** The log has the rows and controls that are sent, in order, and
the progress or frozen state recorded at each barrier. The envelopes need not follow the protocol. -/
theorem durable_fan_in :
    (∀ (n : ℕ) (ctx : GraphCtx) (oracle : UnionOracle) (t : UnionTask n) (queues : Fin n → List PortMessage)
      (σ₁ σ₂ : List (Fin n)), (portTask ctx oracle).Consumes ⟨t, queues⟩ σ₁ →
        (portTask ctx oracle).Consumes ⟨t, queues⟩ σ₂ →
        ((portTask ctx oracle).consume ⟨t, queues⟩ σ₁).Agrees
          ((portTask ctx oracle).consume ⟨t, queues⟩ σ₂)) ∧
    ∀ (ctx : JobCtx) (oracle : JoinOracle) (t : JoinTask) (queues : Side → List PortMessage) (σ₁ σ₂ : List Side),
      (portTask ctx oracle).Consumes ⟨t, queues⟩ σ₁ → (portTask ctx oracle).Consumes ⟨t, queues⟩ σ₂ →
        ((portTask ctx oracle).consume ⟨t, queues⟩ σ₁).Agrees
          ((portTask ctx oracle).consume ⟨t, queues⟩ σ₂) :=
  ⟨fun _ _ _ _ _ _ _ h₁ h₂ => gathers.commutes.consume_agrees h₁ h₂,
    fun _ _ _ _ _ _ h₁ h₂ => gathers.commutes.consume_agrees h₁ h₂⟩

def sampleMessages (rows : List Row) (watermark : ℤ) : List PortMessage :=
  [{ batch := none, control := some (.processingTime 5) }, { batch := some { rows, leased := 64 }, control := none },
    { batch := none, control := some (.graphProgress watermark 0) },
      { batch := none, control := some (.graphRoundEnd 1) },
    { batch := none, control := some (.checkpointBarrier 9) }].map fun envelope =>
      { envelope := some envelope, active := true }

def sampleUnion : PortTask.Config (Fin 2) (UnionTask 2) PortMessage where
  state := Result.value (start 2 [.fresh, .fresh] .fresh 0 0) (by decide)
  queues i := sampleMessages [sampleJoinRow (.int64 7) 10] (20 + i.val)

def sampleUnionTask : PortTask (Fin 2) (UnionTask 2) PortMessage (UnionEvent 2) SparrowError :=
  portTask { maxRows := 64, reservationBytes := 65536, eventTime := true } fun _ _ => .ok ()

def sampleJoinConfig : PortTask.Config Side JoinTask PortMessage where
  state := .startOf (.fresh sampleJoin) 0 0
  queues _ := sampleMessages [sampleJoinRow (.int64 1) 10] 20

def sampleJoinTask : PortTask Side JoinTask PortMessage JoinEvent SparrowError :=
  portTask sampleJob
    { credits := fun _ _ _ _ => .all 0, workspace := fun _ _ => .ok (), freeze := fun _ _ => .ok () }

theorem durable_fan_in_sample :
    (sampleUnionTask.consume sampleUnion [0, 0, 0, 0, 1, 1, 1, 1, 1, 0]).Agrees
      (sampleUnionTask.consume sampleUnion [1, 0, 1, 0, 0, 1, 1, 0, 0, 1]) ∧
    (sampleUnionTask.consume sampleUnion [1, 0, 1, 0, 0, 1, 1, 0, 0, 1]).sent.length = 7 ∧
    (sampleJoinTask.consume sampleJoinConfig
      [.left, .left, .left, .left, .right, .right, .right, .right, .right, .left]).Agrees
      (sampleJoinTask.consume sampleJoinConfig
        [.right, .left, .right, .left, .left, .right, .right, .left, .left, .right]) := by
  refine ⟨durable_fan_in.1 2 _ _ _ _ _ _ ?_ ?_, by decide, durable_fan_in.2 _ _ _ _ _ _ ?_ ?_⟩
  · refine PortTask.Finished.consumes (Fin.forall_fin_two.mpr ⟨?_, ?_⟩) (Result.eq_value (by decide))
    · decide
    · decide
  · refine PortTask.Finished.consumes (Fin.forall_fin_two.mpr ⟨?_, ?_⟩) (Result.eq_value (by decide))
    · decide
    · decide
  · refine PortTask.Finished.consumes (Side.forall_iff.mpr ⟨?_, ?_⟩) (Result.eq_value (by decide))
    · decide
    · decide
  · refine PortTask.Finished.consumes (Side.forall_iff.mpr ⟨?_, ?_⟩) (Result.eq_value (by decide))
    · decide
    · decide

end Sparrow.Runtime
