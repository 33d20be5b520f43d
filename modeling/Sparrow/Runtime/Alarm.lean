import Sparrow.Library.Machine
import Sparrow.Model.Scalar
import Sparrow.Model.Window

/-!
# The alarm state machine

`sparrow-runtime/src/alarm.rs`: the life cycle of one alarm key and the notifications about
it. A condition has to hold for a while before the alarm activates or resolves, and a
notification that falls into the cooldown of the one before it waits, until it can be sent
or is too old.

## The model

Times are integers, and every sum the source checks for overflow is checked
(`checkedAddI`). The episode counter is a `u64`. `observe` and `due` return the next state
and what they did, as the source's do. `drain` is the loop of its callers, which make due
work before each input: two rounds end it (`AlarmLaw`).
-/

namespace Sparrow.Runtime.Alarm

open Library Model

/-- How long conditions have to hold, and how notifications are spaced. -/
structure Policy where
  /-- How long `enter` holds before the alarm activates. -/
  activateMicros : ℤ
  /-- How long `clear` holds before the alarm resolves. -/
  resolveMicros : ℤ
  cooldownMicros : ℤ
  notificationMaxAgeMicros : ℤ
  deriving DecidableEq

/-- What the runtime says of state it cannot accept. -/
def invalid (message : String) : SparrowError := .new .codecViolation message

/-- `add`. -/
def add (time duration : ℤ) : Result ℤ := checkedAddI (invalid "alarm deadline overflow") time duration

/-- `Policy::validate`. -/
def Policy.validate (p : Policy) : Result Unit :=
  refuseIf (p.activateMicros < 0 ∨ p.resolveMicros < 0 ∨ p.cooldownMicros < 0 ∨ p.notificationMaxAgeMicros ≤ 0)
    (invalid "alarm durations must be nonnegative and notification max age positive")

/-- Where an alarm is in its life cycle. -/
inductive Phase where
  | normal
  | pending
  | active
  | recovering
  deriving DecidableEq

/-- The alarm has activated and not resolved since. -/
def Phase.isRaised : Phase → Bool
  | .active | .recovering => true
  | .normal | .pending => false

inductive EventKind where
  | activate
  | resolve
  | notify
  deriving DecidableEq

structure Event where
  kind : EventKind
  phase : Phase
  episode : ℕ
  notify : Bool
  time : ℤ
  deriving DecidableEq

/-- What is known about one key. -/
structure State where
  phase : Phase
  since : ℤ
  deadline : Option ℤ
  episode : ℕ
  notBefore : ℤ
  notificationSince : Option ℤ
  deriving DecidableEq

/-- What a transition did. -/
structure Effects where
  event : Option Event
  notificationExpired : Bool
  notificationCancelled : Bool
  deriving DecidableEq

/-- `Effects::default()`. -/
def Effects.none : Effects := { event := .none, notificationExpired := false, notificationCancelled := false }

def earlier : Option ℤ → Option ℤ → Option ℤ
  | .none, b => b
  | some a, .none => some a
  | some a, some b => some (min a b)

namespace State

/-- `State::new`. -/
def new (now : ℤ) : Result State := do
  refuseIf (now < 0) (invalid "negative alarm time")
  return { phase := .normal, since := now, deadline := none, episode := 0, notBefore := 0, notificationSince := none }

variable (s : State) (p : Policy) (now : ℤ)

/-- When the waiting notification has to be looked at. -/
def notificationDeadline : Result (Option ℤ) :=
  match s.notificationSince with
  | none => .ok none
  | some since => do
    let expiry ← add since p.notificationMaxAgeMicros
    return some (min s.notBefore expiry)

def nextDeadline : Result (Option ℤ) := do
  let notification ← s.notificationDeadline p
  return earlier s.deadline notification

def event (kind : EventKind) (notify : Bool) : Event :=
  { kind, phase := s.phase, episode := s.episode, notify, time := now }

/-- `activate`. -/
def activate : Result (State × Effects) := do
  refuseIf (usizeMax < s.episode + 1) (invalid "alarm episode exhausted")
  let s := { s with episode := s.episode + 1, phase := .active, since := now, deadline := none }
  if s.notBefore ≤ now then
    let notBefore ← add now p.cooldownMicros
    let s := { s with notBefore, notificationSince := none }
    return (s, { Effects.none with event := some (s.event now .activate true) })
  else
    let _ ← add now p.notificationMaxAgeMicros
    let s := { s with notificationSince := some now }
    return (s, { Effects.none with event := some (s.event now .activate false) })

/-- `resolve`: its notification does not wait, and starts a new cooldown. -/
def resolve : Result (State × Effects) := do
  let notBefore ← add now p.cooldownMicros
  let s' := { s with phase := .normal, since := now, deadline := none, notBefore, notificationSince := none }
  return (s', { Effects.none with
    event := some (s'.event now .resolve true), notificationCancelled := s.notificationSince.isSome })

def isDue (next : Option ℤ) : Bool := next.any fun time => time ≤ now

/-- `observe`: a sample of the two conditions. -/
def observe (enter clear : Bool) : Result (State × Effects) := do
  p.validate
  refuseIf (now < 0 ∨ now < s.since ∨ (enter && clear) = true)
    (invalid "alarm requires monotonic time and exclusive enter/clear")
  let next ← s.nextDeadline p
  refuseIf (isDue now next = true) (invalid "alarm due work must precede input")
  match s.phase, enter, clear with
  | .normal, true, false =>
    if p.activateMicros = 0 then s.activate p now
    else
      let deadline ← add now p.activateMicros
      return ({ s with phase := .pending, since := now, deadline := some deadline }, .none)
  | .pending, false, _ => return ({ s with phase := .normal, since := now, deadline := none }, .none)
  | .active, false, true =>
    if p.resolveMicros = 0 then s.resolve p now
    else
      let deadline ← add now p.resolveMicros
      return ({ s with phase := .recovering, since := now, deadline := some deadline }, .none)
  | .recovering, _, false => return ({ s with phase := .active, since := now, deadline := none }, .none)
  | _, _, _ => return (s, .none)

/-- `due`: one timer transition, if one is due. The condition wins a tie, and a notification
that has become too old is not sent. -/
def due : Result (State × Effects) := do
  p.validate
  refuseIf (now < 0 ∨ now < s.since) (invalid "alarm time moved backwards")
  let next ← s.nextDeadline p
  if isDue now next then
    if s.deadline = next then
      match s.phase with
      | .pending => s.activate p now
      | .recovering => s.resolve p now
      | _ => .error (invalid "alarm condition timer has no pending transition")
    else
      match s.notificationSince with
      | none => .error (invalid "alarm notification timer missing")
      | some since => do
        let expiry ← add since p.notificationMaxAgeMicros
        if expiry ≤ now then
          return ({ s with notificationSince := none }, { Effects.none with notificationExpired := true })
        else
          let notBefore ← add now p.cooldownMicros
          let s := { s with notBefore, notificationSince := none }
          return (s, { Effects.none with event := some (s.event now .notify true) })
  else return (s, .none)

/-- The rounds of a loop that makes due work, each with what it returned. -/
def drainFor : ℕ → State → Result (List (State × Effects))
  | 0, _ => .ok []
  | n + 1, s => do
    let next ← s.nextDeadline p
    if isDue now next then
      let done ← s.due p now
      let rest ← drainFor n done.1
      return done :: rest
    else return []

def drain : Result (List (State × Effects)) := drainFor p now 2 s

end State

/-! ### Runs -/

/-- What a key is given: the time, and a sample of the two conditions. -/
inductive Call where
  | tick (now : ℤ)
  | observe (now : ℤ) (enter clear : Bool)

def Call.now : Call → ℤ
  | .tick now => now
  | .observe now _ _ => now

/-- A call with what it returned: the due work of a tick, or the answer to a sample. -/
structure Round where
  call : Call
  returned : List (State × Effects)

def after (s : State) (returned : List (State × Effects)) : State := (returned.getLast?.map Prod.fst).getD s

/-- One input: due work is made at its time, then a sample is taken. -/
def step (p : Policy) (s : State) : Call → Result (List Round × State)
  | .tick now => do
    let drained ← s.drain p now
    return ([⟨.tick now, drained⟩], after s drained)
  | .observe now enter clear => do
    let drained ← s.drain p now
    let done ← (after s drained).observe p now enter clear
    return ([⟨.tick now, drained⟩, ⟨.observe now enter clear, [done]⟩], done.1)

/-- A run from the first time a key is seen. -/
def run (p : Policy) (start : ℤ) (calls : List Call) : Result (List Round × State) := do
  let s ← State.new start
  Machine.runOk (step p) s calls

end Sparrow.Runtime.Alarm
