import Sparrow.Library.MarkerCut
import Sparrow.Plan.WindowSpec
import Sparrow.Runtime.Watermark

/-!
# The tasks of a graph job

`sparrow-runtime/src/kernel/graph.rs`: the stages of a DAG job are tasks that take
envelopes from their mailboxes and publish to the mailboxes of the stages after them.
`router` is a Branch or a Route, `union` is UnionAll with the alignment of checkpoint
barriers; the other stages hold one mailbox each and differ, as to barriers, in what they
do with one whose checkpoint is no longer active. The registry of the active checkpoint is
that of `barrier.rs`, `AlignedAcks`.

## The model

A job is a wiring with a stage at each node. The steps of a run are those between two
await points: taking one envelope, publishing one item, a source emitting or injecting a
barrier, beginning a checkpoint or dropping it. A poll of the union's `select!` has two
steps, because other threads run in between: it looks at the abandonment token of the
checkpoint it aligns, and then takes from an input that is not blocked.

The token of a checkpoint is cancelled exactly when the checkpoint is no longer active:
the registry takes the request and cancels its token under one lock.

## Honest scope

No edge is best-effort. The credits of a router are left out, a refused credit being the
end of the job, and so is a mailbox that closes. Transforms, deduplication, lookups, windows
and the other stateful stages and sinks are any function of their own state and one item;
of a union the order in which it polls its inputs is left open.
-/

namespace Sparrow.Runtime.Dag

open Library Model Plan Function WatermarkHub

/-- `invalid`. -/
def invalid (message : String) : SparrowError := .new .invalidArgument message

inductive StreamControl where
  | liveFeedStart (micros : ℤ) (epoch : ℕ)
  | liveFeedEnd (probeStarted : ℤ)
  | processingTime (micros : ℤ)
  | feedObservation (coverageSince : ℤ)
  | graphProgress (watermarkMicros : ℤ) (flags : ℕ)
  | graphRoundEnd (sequence : ℕ)
  | endOfInput
  | watermark (input : ℕ) (wmMicros : ℤ)
  | idle (input : ℕ)
  | active (input : ℕ)
  deriving DecidableEq

/-- What an envelope carries, barriers apart: rows or a control, never both. -/
inductive Payload where
  | batch (batch : RowBatch)
  | control (control : StreamControl)

variable {S E τ : Type}

/-! ### Branch and Route -/

/-- `RouteMode`. -/
inductive RouteMode where
  | firstMatch
  | allMatch
  deriving DecidableEq

section Router

variable [DecidableEq E]

/-- The ports whose case is true for a row; in `FirstMatch` mode the first of them. -/
def matching (mode : RouteMode) (row : Row) : List (BoundExpr × E) → Result (List E)
  | [] => .ok []
  | (expr, port) :: rest => do
    match ← expr.eval row.values with
    | .bool true => if mode = .firstMatch then return [port] else return port :: (← matching mode row rest)
    | _ => matching mode row rest

/-- The mask of a row: the ports it goes to, the default if no case is true. -/
def mask (mode : RouteMode) (cases : List (BoundExpr × E)) (default : E) (row : Row) : Result (List E) := do
  let ports ← matching mode row cases
  return if ports.isEmpty then [default] else ports

/-- Split a batch over the outputs; an output without rows gets nothing. -/
def route (outputs : List E) (mode : RouteMode) (cases : List (BoundExpr × E)) (default : E) (batch : RowBatch) :
    Result (List (E × Payload)) := do
  let masks ← batch.rows.mapM (mask mode cases default)
  return outputs.filterMap fun port =>
    let rows := ((batch.rows.zip masks).filter fun (_, mask) => port ∈ mask).map (·.1)
    if rows.isEmpty then none else some (port, .batch { batch with rows })

/-- One payload through a router, `publish` being what it does with a batch. -/
def router (outputs : List E) (publish : RowBatch → Result (List (E × Payload))) (ended : Bool) :
    Payload → Result (List (E × Payload) × Bool)
  | .batch batch => do
    if ended then .error (invalid "router data after EOF") else
    return (← publish batch, ended)
  | .control control => .ok (outputs.map fun e => (e, .control control), ended || control = .endOfInput)

end Router

/-! ### UnionAll -/

structure UnionTime where
  /-- `hub`. -/
  hub : WatermarkHub
  /-- `ended`. -/
  ended : List Bool
  /-- `last`. -/
  last : Option ℤ
  /-- `idle`. -/
  idle : Bool

namespace UnionTime

def start (inputs : ℕ) : UnionTime where
  hub := (List.range inputs).foldl (fun hub i => (hub.register (Fin.ofNat _ i)).2)
    (.withCapacity (inputs % 2 ^ 16))
  ended := List.replicate inputs false
  last := none
  idle := false

variable (u : UnionTime)

def allEnded : Bool := u.ended.all id

/-- Say whether all inputs are idle now, if that has changed. -/
def sayIdle : List StreamControl × UnionTime :=
  if u.hub.allIdle = u.idle then ([], u)
  else ([if u.hub.allIdle then .idle 0 else .active 0], { u with idle := u.hub.allIdle })

def sayWatermark : List StreamControl × UnionTime :=
  match u.hub.progress with
  | some wm => if u.last.all fun previous => wm > previous
      then ([.watermark 0 wm], { u with last := some wm }) else ([], u)
  | none => ([], u)

/-- The end of the loop: what the inputs say together, unless all have ended. -/
def settle : List StreamControl × UnionTime :=
  if u.allEnded then ([], u)
  else (u.sayIdle.1 ++ u.sayIdle.2.sayWatermark.1, u.sayIdle.2.sayWatermark.2)

def called {α : Type} : Result α × WatermarkHub → Result WatermarkHub
  | (.error e, _) => .error e
  | (.ok _, hub) => .ok hub

/-- Say `Active` if the inputs were idle. -/
def wake : List StreamControl := if u.idle then [.active 0] else []

/-- Go on to the end of the loop, having said `front`. -/
def thenSettle (front : List Payload) (u : UnionTime) : List Payload × UnionTime :=
  (front ++ u.settle.1.map .control, u.settle.2)

/-- One payload from input `i`. -/
def receive (i : ℕ) : Payload → Result (List Payload × UnionTime)
  | .batch batch => do
    if u.ended.getD i false then .error (invalid "UnionAll data after EOF") else
    let hub ← called (u.hub.markActive (Fin.ofNat _ i))
    return thenSettle (u.wake.map .control ++ [.batch batch]) { u with hub, idle := false }
  | .control .endOfInput => do
    let hub ← called (u.hub.markIdle (Fin.ofNat _ i))
    let u := { u with hub, ended := u.ended.set i true }
    if u.allEnded then
      return ((u.wake ++ [StreamControl.watermark 0 Int64.maxValue.toInt, .endOfInput]).map Payload.control,
        { u with idle := false, last := some Int64.maxValue.toInt })
    else return thenSettle [] u
  | .control (.watermark _ wm) => do
    let hub ← called (u.hub.setWatermark (Fin.ofNat _ i) wm)
    return thenSettle [] { u with hub }
  | .control (.idle _) => do
    let hub ← called (u.hub.markIdle (Fin.ofNat _ i))
    return thenSettle [] { u with hub }
  | .control (.active _) => do
    let hub ← called (u.hub.markActive (Fin.ofNat _ i))
    return thenSettle [] { u with hub }
  | .control _ =>
    .error (.new .unsupportedRestore "ordered processing time is not enabled for legacy DAG Union")

/-- Nothing is left to say: the inputs have ended, or the idleness and the watermark were said. -/
def Settled : Prop :=
  u.allEnded = true ∨ u.hub.allIdle = u.idle ∧ ∀ wm ∈ u.hub.progress, ∃ previous ∈ u.last, wm ≤ previous

theorem settle_of_settled {u : UnionTime} (h : u.Settled) : u.settle = ([], u) := by
  unfold settle
  split_ifs with he
  · rfl
  · obtain ⟨hi, hwm⟩ := h.resolve_left he
    have hs : u.sayIdle = ([], u) := if_pos hi
    simp only [hs, List.nil_append]
    unfold sayWatermark
    cases hp : u.hub.progress with
    | none => rfl
    | some wm =>
      obtain ⟨previous, hl, hle⟩ := hwm wm hp
      have hl : u.last = some previous := hl
      simp [hl, hle]

theorem settled_settle : u.settle.2.Settled := by
  unfold settle
  split_ifs with he
  · exact .inl he
  · right
    -- the idleness is said first, and saying the watermark changes neither it nor the hub
    have hi : u.sayIdle.2.hub.allIdle = u.sayIdle.2.idle := by
      unfold sayIdle
      by_cases h : u.hub.allIdle = u.idle
      · rw [if_pos h]
        exact h
      · rw [if_neg h]
    unfold sayWatermark
    cases hp : u.sayIdle.2.hub.progress with
    | none => exact ⟨hi, by simp [hp]⟩
    | some wm =>
      dsimp only
      split_ifs with hl
      · refine ⟨hi, fun w hw => ⟨wm, rfl, ?_⟩⟩
        exact le_of_eq (Option.some.inj (hw.symm.trans hp))
      · refine ⟨hi, fun w hw => ?_⟩
        cases hp.symm.trans hw
        cases hpr : u.sayIdle.2.last with
        | none => simp [hpr] at hl
        | some previous => exact ⟨previous, rfl, by simpa [hpr] using hl⟩

theorem settled_start (inputs : ℕ) : (start inputs).Settled := by
  have hn : ∀ e ∈ (start inputs).hub.inputs.entries, e.2 = .new := by
    unfold start
    generalize List.range inputs = l
    have hem : ∀ e ∈ (withCapacity (inputs % 2 ^ 16)).inputs.entries, e.2 = .new := by
      intro e he
      simp [withCapacity, SortedMap.empty] at he
    generalize withCapacity (inputs % 2 ^ 16) = hub at hem
    induction l generalizing hub with
    | nil => exact hem
    | cons i _ ih =>
      refine ih _ fun e he => ?_
      rcases register_cases hub (Fin.ofNat _ i) with ⟨inputs', hr, -, hm⟩ | ⟨err, hr⟩
      · simp only [hr] at he
        rcases hm e he with hold | rfl
        · exact hem e hold
        · rfl
      · simp only [hr] at he
        exact hem e he
  cases hen : (start inputs).hub.inputs.entries with
  | nil =>
    refine .inr ⟨?_, ?_⟩
    · have hi : (start inputs).hub.allIdle = false := by simp [allIdle, SortedMap.size, hen]
      rw [hi]
      rfl
    · simp [progress, effective, SortedMap.size, hen]
  | cons e rest =>
    have he : e.2 = .new := hn e (by simp [hen])
    refine .inr ⟨?_, ?_⟩
    · have hi : (start inputs).hub.allIdle = false := by
        simp [allIdle, hen, he, InputState.new]
      rw [hi]
      rfl
    · have hu : (start inputs).hub.anyActiveUninitialized = true := by
        simp [anyActiveUninitialized, hen, he, InputState.new]
      simp [progress, effective, hu]

theorem settled_receive {u u' : UnionTime} {i : ℕ} {p : Payload} {outs : List Payload}
    (h : u.receive i p = .ok (outs, u')) : u'.Settled := by
  have hs : ∀ {front : List Payload} {v : UnionTime},
      (Except.ok (thenSettle front v) : Result _) = .ok (outs, u') → u'.Settled := by
    intro front v hv
    obtain ⟨-, rfl⟩ : _ ∧ _ := by simpa [thenSettle] using Except.ok.inj hv
    exact settled_settle v
  unfold receive at h
  split at h
  · split_ifs at h
    obtain ⟨hub, -, hr⟩ := bind_eq_ok.mp h
    exact hs hr
  · obtain ⟨hub, -, hr⟩ := bind_eq_ok.mp h
    dsimp only at hr
    split_ifs at hr with he
    · obtain ⟨-, rfl⟩ : _ ∧ _ := by simpa using Except.ok.inj hr
      exact .inl he
    · exact hs hr
  · obtain ⟨hub, -, hr⟩ := bind_eq_ok.mp h
    exact hs hr
  · obtain ⟨hub, -, hr⟩ := bind_eq_ok.mp h
    exact hs hr
  · obtain ⟨hub, -, hr⟩ := bind_eq_ok.mp h
    exact hs hr
  · simp at h

end UnionTime

/-! ### Jobs -/

/-- What a stage does with a barrier whose checkpoint is no longer active. -/
inductive Late where
  | passes
  | drops
  deriving DecidableEq

/-- A stage with one input whose work on a payload is a function of its state. -/
structure Operator (E τ : Type) where
  work : τ → Payload → Result (List (E × Payload) × τ)
  participant : Bool
  late : Late

/-- The stages of a job. -/
inductive Stage (E τ : Type) where
  | source
  | branch
  | route (mode : RouteMode) (cases : List (BoundExpr × E)) (default : E)
  | unionAll
  | operator (op : Operator E τ)

def Stage.isSource : Stage E τ → Bool
  | source => true
  | _ => false

def Stage.isUnion : Stage E τ → Bool
  | unionAll => true
  | _ => false

/-- A state or sink participant of the checkpoints. -/
def Stage.isParticipant : Stage E τ → Bool
  | operator op => op.participant
  | _ => false

/-- What a task keeps of the payloads it has seen. -/
inductive TaskState (τ : Type) where
  | source
  | router (ended : Bool)
  | union (time : UnionTime)
  | operator (state : τ)

structure Job (S E τ : Type) extends Wiring S E where
  stage : S → Stage E τ
  start : S → τ
  isSource_iff : ∀ s, (stage s).isSource = true ↔ inputs s = []
  one_input : ∀ s, (stage s).isSource = false → (stage s).isUnion = false → ∃ e, inputs s = [e]
  wired : ∀ s op, stage s = .operator op → ∀ st p outs st', op.work st p = .ok (outs, st') → ∀ x ∈ outs, x.1 ∈ outputs s

namespace Job

variable [DecidableEq E] (job : Job S E τ)

def init (s : S) : TaskState τ :=
  match job.stage s with
  | .source => .source
  | .branch | .route .. => .router false
  | .unionAll => .union (.start (job.inputs s).length)
  | .operator _ => .operator (job.start s)

/-- One payload from the input `e`. -/
def receive (s : S) (st : TaskState τ) (e : E) (p : Payload) : Result (List (E × Payload) × TaskState τ) :=
  match job.stage s, st with
  | .branch, .router ended => do
    let (outs, ended) ← router (job.outputs s)
      (fun batch => .ok ((job.outputs s).map fun e => (e, .batch batch))) ended p
    return (outs, .router ended)
  | .route mode cases default, .router ended => do
    let (outs, ended) ← router (job.outputs s) (route (job.outputs s) mode cases default) ended p
    return (outs, .router ended)
  | .unionAll, .union time => do
    let (outs, time) ← time.receive ((job.inputs s).idxOf e) p
    return (outs.flatMap fun p => (job.outputs s).map fun e => (e, p), .union time)
  | .operator op, .operator st => do
    let (outs, st) ← op.work st p
    return (outs, .operator st)
  | _, _ => .error (.new .internal "task of another stage")

/-- The job as a network of stages with their work on payloads. -/
def network : Network S E Payload (TaskState τ) SparrowError where
  toWiring := job.toWiring
  init := job.init
  step s st x := job.receive s st x.1 x.2

end Job

/-! ### Runs -/

/-- A task: what its loop keeps between two envelopes, and what it has still to publish. -/
structure Task (E τ : Type) where
  state : TaskState τ
  blocked : E → Bool
  aligning : Option ℕ
  completed : ℕ
  polling : Bool
  injected : ℕ
  pending : List (E × Item Payload)

/-- A job in the middle of a run. -/
structure Net (S E τ : Type) where
  active : Option ℕ
  begun : ℕ
  task : S → Task E τ
  mailbox : E → List (Item Payload)
  failed : Option (S × Item Payload × SparrowError)
  history : S → List (Entry E Payload)

/-- An acknowledgement of a barrier. -/
structure Ack (S E τ : Type) where
  participant : S
  id : ℕ
  frozen : TaskState τ
  processed : List (E × Payload)

/-- The steps of a run. -/
inductive Action (S E : Type) where
  /-- `begin_with_deadline`. -/
  | begin (id : ℕ)
  | abandon
  | emit (s : S) (outs : List (E × Payload))
  | inject (s : S) (id : ℕ)
  | publish (s : S)
  | look (s : S)
  | take (e : E)

namespace Task

/-- `abandonment`: an alignment whose checkpoint is not active any more is given up. -/
def look (active : Option ℕ) (t : Task E τ) : Task E τ :=
  if t.aligning.any fun id => active ≠ some id then
    { t with aligning := none, blocked := fun _ => false, polling := true }
  else { t with polling := true }

/-- What the union does at the end of the loop. -/
def settle (t : Task E τ) : List StreamControl × Task E τ :=
  match t.state with
  | .union time => (time.settle.1, { t with state := .union time.settle.2 })
  | _ => ([], t)

end Task

/-- What a task does with a barrier: whether it passes it on, the controls it says afterwards, and the
task it leaves. -/
structure Reply (E τ : Type) where
  forward : Bool
  controls : List StreamControl
  task : Task E τ

namespace Job

variable [DecidableEq E] (job : Job S E τ)

def align (active : Option ℕ) (s : S) (t : Task E τ) (e : E) (id : ℕ) : Result (Reply E τ) :=
  if id ≤ t.completed ∨ active ≠ some id then .ok { forward := false, controls := [], task := t }
  else if t.aligning.any fun x => x ≠ id then .error (invalid "conflicting active graph barrier")
  else
    let blocked := update t.blocked e true
    let whole := (job.inputs s).all blocked
    let t := if whole then { t with completed := id, aligning := none, blocked := fun _ => false }
      else { t with aligning := some id, blocked }
    .ok { forward := whole, controls := t.settle.1, task := t.settle.2 }

def barrier (active : Option ℕ) (s : S) (t : Task E τ) (e : E) (id : ℕ) : Result (Reply E τ) :=
  match job.stage s with
  | .source => .ok { forward := false, controls := [], task := t }
  | .branch | .route .. => .ok { forward := active = some id, controls := [], task := t }
  | .unionAll => job.align active s t e id
  | .operator op => .ok { forward := active = some id ∨ op.late = .passes, controls := [], task := t }

def startTask (s : S) : Task E τ where
  state := job.init s
  blocked := fun _ => false
  aligning := none
  completed := 0
  polling := false
  injected := 0
  pending := []

def startNet : Net S E τ where
  active := none
  begun := 0
  task := job.startTask
  mailbox := fun _ => []
  failed := none
  history := fun _ => []

end Job

namespace Net

variable [DecidableEq S] [DecidableEq E]

/-- A stage becomes the task `t`, and has what `en` says to publish. -/
def advance (net : Net S E τ) (s : S) (t : Task E τ) (en : Entry E Payload) : Net S E τ :=
  { net with
    task := update net.task s { t with pending := en.produced }
    history := update net.history s (net.history s ++ [en]) }

/-- The envelope in front of a mailbox is taken. -/
def pop (net : Net S E τ) (e : E) : Net S E τ :=
  { net with mailbox := update net.mailbox e (net.mailbox e).tail }

def processed (net : Net S E τ) (s : S) : List (E × Payload) := addressedData (taken (net.history s))

variable (job : Job S E τ) (net : Net S E τ)

/-- A stage takes the item in front of `e`. -/
def handle (e : E) : Item Payload → List (Ack S E τ) × Net S E τ
  | .data p =>
    let s := job.receiver e
    let t := net.task s
    match job.receive s t.state e p with
    | .error err => ([], { net with failed := some (s, .data p, err) })
    | .ok (outs, state) =>
      ([], (net.pop e).advance s { t with state, polling := false } ⟨some (e, .data p), asData outs, none⟩)
  | .marker id =>
    let s := job.receiver e
    match job.barrier net.active s (net.task s) e id with
    | .error err => ([], { net with failed := some (s, .marker id, err) })
    | .ok reply =>
      let acks := if (job.stage s).isParticipant ∧ net.active = some id then
        [{ participant := s, id, frozen := (net.task s).state, processed := net.processed s }] else []
      let barriers := if reply.forward then markerOn id (job.outputs s) else []
      let controls := reply.controls.flatMap fun c => (job.outputs s).map fun e => (e, Payload.control c)
      (acks, (net.pop e).advance s { reply.task with polling := false }
        ⟨some (e, .marker id), barriers ++ asData controls, if reply.forward then some id else none⟩)

/-- One step. A step that is not possible changes nothing. -/
def step (a : Action S E) : List (Ack S E τ) × Net S E τ :=
  if net.failed.isSome then ([], net)
  else match a with
    | .begin id =>
      if net.active = none ∧ net.begun < id then ([], { net with active := some id, begun := id }) else ([], net)
    | .abandon => ([], { net with active := none })
    | .emit s outs =>
      if (job.stage s).isSource ∧ (net.task s).pending.isEmpty ∧ ∀ x ∈ outs, x.1 ∈ job.outputs s then
        ([], net.advance s (net.task s) ⟨none, asData outs, none⟩)
      else ([], net)
    | .inject s id =>
      if (job.stage s).isSource ∧ (net.task s).pending.isEmpty ∧ (net.task s).injected < id ∧ id ≤ net.begun then
        ([], net.advance s { net.task s with injected := id } ⟨none, markerOn id (job.outputs s), some id⟩)
      else ([], net)
    | .publish s =>
      match (net.task s).pending with
      | [] => ([], net)
      | (e, x) :: rest =>
        ([], { net with
          task := update net.task s { net.task s with pending := rest }
          mailbox := update net.mailbox e (net.mailbox e ++ [x]) })
    | .look s =>
      if (job.stage s).isUnion then
        ([], { net with task := update net.task s ((net.task s).look net.active) })
      else ([], net)
    | .take e =>
      let t := net.task (job.receiver e)
      match net.mailbox e with
      | [] => ([], net)
      | x :: _ =>
        if t.pending.isEmpty ∧ ((job.stage (job.receiver e)).isUnion → t.polling ∧ !t.blocked e) then
          net.handle job e x
        else ([], net)

/-- A union does not take the barrier of the active checkpoint while it still aligns another one: its last
look at the token came after that one was dropped. -/
def Looked (net : Net S E τ) : Action S E → Prop
  | .take e => ∀ x ∈ (net.task (job.receiver e)).aligning, ∀ id ∈ net.active,
    (net.mailbox e).head?.any (Item.isMarker id) → x = id
  | _ => True

instance (a : Action S E) : Decidable (net.Looked job a) := by
  cases a <;> unfold Looked <;> infer_instance

end Net

end Sparrow.Runtime.Dag
