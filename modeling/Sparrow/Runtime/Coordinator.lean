import Mathlib.Algebra.Group.Nat.Defs
import Mathlib.Data.List.DropRight
import Sparrow.Library.Machine
import Sparrow.Model.Error

/-!
# The checkpoint coordinator

`sparrow-runtime/src/coordinator.rs`: a barrier is entered with `begin`, polled with
`arbitrate` and left with `complete`, `force_committed` or `abort_now`; stop and abort
requests are flags that `arbitrate` reads.

The abort flag is meant for the barrier in flight, but only a `complete` that finds the
phase not yet `Committed` takes it back. A request made while no barrier runs, or before
the pair `force_committed`, `complete` of `checkpoint_barrier`, is still there when the
next barrier begins, and that barrier is aborted in its place (`stale_abort`).

## What is proved

* `abort_hits_barrier_in_flight` — otherwise an abort is for the barrier in flight.
* `arbitrate_error` — what an error of `arbitrate` says about the state it was called in.
* `aborted_of_abort` — if every `begin` finds the flag clear, a set flag is a request
  made since the last successful `begin`.
-/

namespace Sparrow.Runtime

open Library Model

/-- The coordinator's phase. -/
inductive CheckpointPhase where
  | idle | checkpointing | committed | aborted | timedOut | stopped
  deriving DecidableEq, Repr

/-- `{:?}` of a phase. -/
def CheckpointPhase.debug : CheckpointPhase → String
  | .idle => "Idle"
  | .checkpointing => "Checkpointing"
  | .committed => "Committed"
  | .aborted => "Aborted"
  | .timedOut => "TimedOut"
  | .stopped => "Stopped"

/-- `{:?}` of a duration in nanoseconds: the largest unit that does not exceed it. -/
def debugDuration (nanos : ℕ) : String :=
  if 10 ^ 9 ≤ nanos then decimal (10 ^ 9) ++ "s"
  else if 10 ^ 6 ≤ nanos then decimal (10 ^ 6) ++ "ms"
  else if 10 ^ 3 ≤ nanos then decimal (10 ^ 3) ++ "µs"
  else toString nanos ++ "ns"
where
  decimal (unit : ℕ) : String :=
    -- adding the unit keeps the leading zeros of the fraction
    let fraction := ((toString (unit + nanos % unit)).toList.drop 1).rdropWhile (· == '0')
    toString (nanos / unit) ++ if fraction = [] then "" else "." ++ String.ofList fraction

/-- The coordinator; instants and durations are nanoseconds. -/
structure CheckpointCoordinator where
  phase : CheckpointPhase
  timeout : ℕ
  started : Option ℕ
  abort : Bool
  stop : Bool
  deriving DecidableEq, Repr

namespace CheckpointCoordinator

def new (timeout : ℕ) : CheckpointCoordinator :=
  { phase := .idle, timeout, started := none, abort := false, stop := false }

variable (c : CheckpointCoordinator)

/-- `request_abort`. -/
def requestAbort : CheckpointCoordinator := { c with abort := true }

/-- `request_stop`. -/
def requestStop (c : CheckpointCoordinator) : CheckpointCoordinator := { c with stop := true, abort := true }

/-- Leave `Checkpointing` for `phase`. -/
def leave (phase : CheckpointPhase) : CheckpointCoordinator :=
  { c with phase, started := none }

/-- `t0.elapsed() > self.timeout`, on a clock that reads `now`. -/
def elapsed (c : CheckpointCoordinator) (now : ℕ) : Bool :=
  match c.started with
  | some t0 => c.timeout < now - t0
  | none => false

/-- Poll timeout, stop and abort: `arbitrate`. -/
def arbitrate (c : CheckpointCoordinator) (now : ℕ) : Result Unit × CheckpointCoordinator :=
  if c.stop then
    let c' := if c.phase = .checkpointing then c.leave .stopped else c
    (.error ((SparrowError.new .cancelled "checkpoint aborted: stop requested (no stuck Checkpointing)").withContext
      "phase" c'.phase.debug), c')
  else if c.abort ∧ c.phase = .checkpointing then
    (.error (.new .cancelled "checkpoint aborted by coordinator"), c.leave .aborted)
  else if c.phase = .checkpointing ∧ c.elapsed now then
    let timeout := debugDuration c.timeout
    (.error ((SparrowError.new .cancelled s!"checkpoint timed out after {timeout}; leaving Checkpointing").withContext
      "phase" "TimedOut"), c.leave .timedOut)
  else (.ok (), c)

/-- `fail_stuck`. -/
def failStuck (msg : String) : SparrowError × CheckpointCoordinator :=
  ((SparrowError.new .internal msg).withContext "phase" "Aborted", c.leave .aborted)

/-- Enter `Checkpointing`: `begin`. -/
def begin (c : CheckpointCoordinator) (now : ℕ) : Result Unit × CheckpointCoordinator :=
  match c.arbitrate now with
  | (.error e, c) => (.error e, c)
  | (.ok (), c) =>
    if c.phase = .checkpointing then
      let (e, c) := c.failStuck "already Checkpointing; refusing a second barrier"
      (.error e, c)
    else (.ok (), { c with phase := .checkpointing, started := some now })

/-- Leave `Checkpointing` after a commit: `complete`. -/
def complete : Result CheckpointPhase × CheckpointCoordinator :=
  if c.phase = .committed then (.ok c.phase, c)
  else
    let c := { c.leave .committed with abort := false }
    (.ok c.phase, c)

/-- `force_committed`. -/
def forceCommitted : CheckpointCoordinator := c.leave .committed

/-- `abort_now`. -/
def abortNow (_reason : String) : CheckpointPhase × CheckpointCoordinator :=
  let c := if c.stop then c.leave .stopped else c.leave .aborted
  (c.phase, c)

/-- The calls of a coordinator's owner, with what the clock reads. -/
inductive Call where
  | begin (now : ℕ)
  | arbitrate (now : ℕ)
  | requestAbort
  | requestStop
  | complete
  | forceCommitted
  | abortNow (reason : String)
  deriving DecidableEq, Repr

/-- One call; it is recorded with whether it succeeded. -/
def step (c : CheckpointCoordinator) (call : Call) : List (Call × Bool) × CheckpointCoordinator :=
  let (ok, c) := match call with
    | .begin now => ((c.begin now).1.isOk, (c.begin now).2)
    | .arbitrate now => ((c.arbitrate now).1.isOk, (c.arbitrate now).2)
    | .requestAbort => (true, c.requestAbort)
    | .requestStop => (true, c.requestStop)
    | .complete => (c.complete.1.isOk, c.complete.2)
    | .forceCommitted => (true, c.forceCommitted)
    | .abortNow reason => (true, (c.abortNow reason).2)
  ([(call, ok)], c)

/-- A `begin` that succeeded. -/
def began : Call × Bool → Bool
  | (.begin _, ok) => ok
  | _ => false

/-- An abort was requested after the last successful `begin`. -/
def AbortedSinceBegin (history : List (Call × Bool)) : Prop := ∃ e ∈ history.rtakeWhile (!began ·), e.1 = .requestAbort

instance (history : List (Call × Bool)) : Decidable (AbortedSinceBegin history) :=
  inferInstanceAs (Decidable (∃ e ∈ history.rtakeWhile (!began ·), e.1 = .requestAbort))

/-- A run without stop requests in which every `begin` finds the abort flag clear. -/
def Fresh (call : Call) : Prop :=
  call ≠ .requestStop ∧ ∀ now, call = .begin now → c.abort = false

instance (c : CheckpointCoordinator) (call : Call) : Decidable (Fresh c call) :=
  match call with
  | .begin now => decidable_of_iff (c.abort = false) (by simp [Fresh])
  | .requestStop => .isFalse fun h => h.1 rfl
  | .arbitrate _ | .requestAbort | .complete | .forceCommitted | .abortNow _ => .isTrue (by simp [Fresh])

/-! ### One call -/

variable {c : CheckpointCoordinator} {now : ℕ}

theorem arbitrate_error (h : (c.arbitrate now).1.isOk = false) :
    (c.arbitrate now).2.phase ≠ .checkpointing ∧ (c.stop ∨ c.phase = .checkpointing ∧ (c.abort ∨ c.elapsed now)) := by
  revert h
  fun_cases arbitrate c now with
  | case1 hs c' =>
    refine fun _ => ⟨?_, .inl hs⟩
    by_cases hp : c.phase = .checkpointing <;> simp [c', hp, leave]
  | case2 _ h => exact fun _ => ⟨nofun, .inr ⟨h.2, .inl h.1⟩⟩
  | case3 _ _ h => exact fun _ => ⟨nofun, .inr ⟨h.1, .inr h.2⟩⟩
  | case4 => exact nofun

theorem arbitrate_flags : (c.arbitrate now).2.abort = c.abort ∧ (c.arbitrate now).2.stop = c.stop := by
  unfold arbitrate leave
  split_ifs <;> exact ⟨rfl, rfl⟩

theorem begin_flags : (c.begin now).2.abort = c.abort ∧ (c.begin now).2.stop = c.stop := by
  have h : (c.arbitrate now).2.abort = c.abort ∧ (c.arbitrate now).2.stop = c.stop := arbitrate_flags
  unfold begin failStuck leave
  split
  · rename_i e; rwa [e] at h
  · rename_i e
    rw [e] at h
    split_ifs <;> exact h

theorem begin_idle (hs : c.stop = false) (h : c.phase ≠ .checkpointing) :
    c.begin now = (.ok (), { c with phase := .checkpointing, started := some now }) := by
  simp [begin, arbitrate, hs, h]

theorem arbitrate_ok (hs : c.stop = false) (ha : c.abort = false) (h : c.elapsed now = false) :
    c.arbitrate now = (.ok (), c) := by
  simp [arbitrate, hs, ha, h]

theorem complete_ok : c.complete.1 = .ok .committed ∧ c.complete.2.phase = .committed := by
  unfold complete leave
  split_ifs with h <;> simp [h]

/-! ### Runs -/

variable {history : List (Call × Bool)}

theorem AbortedSinceBegin.snoc {e : Call × Bool} (h : AbortedSinceBegin history) (he : began e = false) :
    AbortedSinceBegin (history ++ [e]) := by
  obtain ⟨x, hx, hr⟩ := h
  refine ⟨x, ?_, hr⟩
  simp [he, hx]

theorem abortedSinceBegin_request (history : List (Call × Bool)) :
    AbortedSinceBegin (history ++ [(.requestAbort, true)]) :=
  ⟨(.requestAbort, true), by simp [began], rfl⟩

theorem step_aborted {call : Call} (hG : Fresh c call) (h : c.abort → AbortedSinceBegin history)
    (hs : (step c call).2.abort) : AbortedSinceBegin (history ++ (step c call).1) := by
  cases call with
  | begin now =>
    rw [show (step c (.begin now)).2.abort = c.abort from begin_flags.1, hG.2 now rfl] at hs
    contradiction
  | arbitrate now =>
    exact (h (arbitrate_flags.1 ▸ hs)).snoc rfl
  | requestAbort => exact abortedSinceBegin_request history
  | requestStop => exact absurd rfl hG.1
  | complete =>
    refine (h ?_).snoc rfl
    revert hs
    simp only [step, complete]
    split_ifs
    · exact id
    · exact nofun
  | forceCommitted => exact (h hs).snoc rfl
  | abortNow reason =>
    refine (h ?_).snoc rfl
    simp only [step, abortNow, leave] at hs
    split_ifs at hs <;> exact hs

theorem step_stop {call : Call} (hG : call ≠ .requestStop) : (step c call).2.stop = c.stop := by
  cases call with
  | begin now => exact begin_flags.2
  | arbitrate now => exact arbitrate_flags.2
  | requestStop => exact absurd rfl hG
  | complete => simp only [step, complete, leave]; split_ifs <;> rfl
  | abortNow reason => simp only [step, abortNow, leave]; split_ifs <;> rfl
  | requestAbort | forceCommitted => rfl

theorem aborted_of_abort {timeout : ℕ} {calls : List Call} (h : Machine.Along step Fresh (new timeout) calls) :
    let r := Machine.run step (new timeout) calls
    r.2.stop = false ∧ (r.2.abort → AbortedSinceBegin r.1) := by
  have hn : (new timeout).stop = false ∧ ((new timeout).abort → AbortedSinceBegin []) := ⟨rfl, nofun⟩
  refine Machine.run_induction (I := fun seen c => c.stop = false ∧ (c.abort → AbortedSinceBegin seen)) ?_ hn h
  intro seen c call hG ⟨hs, ha⟩
  exact ⟨(step_stop hG.1).trans hs, step_aborted hG ha⟩

theorem polls_ok {polls : List ℕ} (hst : c.stop = false) (ha : c.abort = false)
    (h : ∀ t ∈ polls, c.elapsed t = false) :
    Machine.run step c (polls.map .arbitrate) = (polls.map fun t => (.arbitrate t, true), c) := by
  induction polls with
  | nil => rfl
  | cons t rest ih =>
    have hs : step c (.arbitrate t) = ([(.arbitrate t, true)], c) := by
      simp [step, arbitrate_ok hst ha (h t List.mem_cons_self), Except.isOk, Except.toBool]
    rw [List.map_cons, Machine.run_cons, hs, ih fun u hu => h u (List.mem_cons_of_mem t hu)]
    rfl

/-- A call that ends a barrier: `complete`, `abort_now`, and an `arbitrate` that fails. -/
def Ends (c : CheckpointCoordinator) : Call → Prop
  | .complete | .abortNow _ => True
  | .arbitrate now => (c.arbitrate now).1.isOk = false
  | _ => False

theorem step_ends {call : Call} (h : Ends c call) : (step c call).2.phase ≠ .checkpointing := by
  cases call with
  | complete => simp [step, complete_ok.2]
  | abortNow reason => simp only [step, abortNow, leave]; split_ifs <;> simp
  | arbitrate now => exact (arbitrate_error h).1
  | begin | requestAbort | requestStop | forceCommitted => exact h.elim

/-- **An abort is for the barrier in flight**, in every run without stop requests whose `begin`s
find the flag clear: an `arbitrate` fails in time only for a request made since the last successful
`begin`; a call that ends a barrier leaves the coordinator ready for a next one; that one is not
disturbed by polls in time and completes. A `begin` that finds the flag set succeeds as well, and
the first poll of its barrier fails. -/
theorem abort_hits_barrier_in_flight (timeout : ℕ) (calls : List Call)
    (h : Machine.Along step Fresh (new timeout) calls) :
    let r := Machine.run step (new timeout) calls
    (∀ now, (r.2.arbitrate now).1.isOk = false → r.2.elapsed now = false → AbortedSinceBegin r.1) ∧
    (∀ call, call ≠ .requestStop → Ends r.2 call → ∀ now, ((step r.2 call).2.begin now).1 = .ok ()) ∧
    (r.2.phase ≠ .checkpointing → ∀ now, ∃ c, r.2.begin now = (.ok (), c) ∧ c.phase = .checkpointing ∧
      (r.2.abort = false → ∀ polls : List ℕ, (∀ t ∈ polls, t - now ≤ c.timeout) →
        Machine.run step c (polls.map .arbitrate) = (polls.map fun t => (.arbitrate t, true), c) ∧
        c.complete.1 = .ok .committed) ∧
      (r.2.abort = true → ∀ t, (c.arbitrate t).1.isOk = false)) := by
  intro r
  obtain ⟨hst, hab⟩ := aborted_of_abort h
  refine ⟨fun now her hin => ?_, fun call hc hen now => ?_, fun hp now => ?_⟩
  · obtain ⟨-, hs | ⟨-, ha | he⟩⟩ := arbitrate_error her
    · simp [r, hst] at hs
    · exact hab ha
    · simp [hin] at he
  · rw [begin_idle ((step_stop hc).trans hst) (step_ends hen)]
  · refine ⟨_, begin_idle hst hp, rfl, fun hcl polls hpo => ?_, fun hse t => ?_⟩
    · refine ⟨polls_ok hst hcl fun t ht => ?_, complete_ok.1⟩
      simpa [elapsed] using hpo t ht
    · have hs : r.2.stop = false := hst
      simp [arbitrate, hs, hse, Except.isOk, Except.toBool]

theorem abort_hits_barrier_in_flight_retry :
    let calls := [Call.begin 0, .requestAbort, .complete, .begin 10, .arbitrate 12, .requestAbort]
    Machine.Along step Fresh (new 5) calls ∧ ((Machine.run step (new 5) calls).2.arbitrate 13).1.isOk = false ∧
      AbortedSinceBegin (Machine.run step (new 5) calls).1 :=
  ⟨by decide, by decide, (abort_hits_barrier_in_flight 5 _ (by decide)).1 13 (by decide) (by decide)⟩

/-- A request that `force_committed` and `complete` leave behind aborts the next barrier, and so does
one made before the first: no request was made after either `begin`. -/
theorem stale_abort :
    let published := Machine.run step (new 5)
      [.begin 0, .requestAbort, .forceCommitted, .complete, .begin 10]
    let idle := Machine.run step (new 5) [.requestAbort, .begin 10]
    ((published.2.arbitrate 11).1.isOk = false ∧ published.2.elapsed 11 = false ∧ ¬ AbortedSinceBegin published.1) ∧
    (idle.2.arbitrate 11).1.isOk = false ∧ idle.2.elapsed 11 = false ∧ ¬ AbortedSinceBegin idle.1 := by
  decide

end CheckpointCoordinator

end Sparrow.Runtime
