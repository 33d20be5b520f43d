import Sparrow.Library.Held
import Sparrow.Runtime.Alarm

/-!
# The law of alarms

What holds of every run of one alarm key: activations and resolutions alternate and come
exactly when their condition has held for as long as the policy asks, and of each episode
there is at most one notification, in its time.

## What is proved

* `Change`, `due_ok`, `observe_ok` — all that a transition can do.
* `Books` — what has been reported, and what is still to be reported.
* `lifecycle_law` — the law, for every run.
-/

namespace Sparrow.Runtime.Alarm

open Library Model State List Option

/-! ### What a transition can do -/

namespace State

variable (s : State) (p : Policy) (now : ℤ)

def activated : State :=
  { s with episode := s.episode + 1, phase := .active, since := now, deadline := none,
           notBefore := now + p.cooldownMicros, notificationSince := none }

def deferred : State :=
  { s with episode := s.episode + 1, phase := .active, since := now, deadline := none, notificationSince := some now }

def resolved : State :=
  { s with phase := .normal, since := now, deadline := none, notBefore := now + p.cooldownMicros,
           notificationSince := none }

def notified : State := { s with notBefore := now + p.cooldownMicros, notificationSince := none }

/-- The waiting notification is dropped. -/
def unnotified : State := { s with notificationSince := none }

/-- Another phase, on the same side of the life cycle. -/
def moved (phase : Phase) (since : ℤ) (deadline : Option ℤ) : State := { s with phase, since, deadline }

end State

def Effects.of (e : Event) : Effects := { Effects.none with event := some e }

/-- One transition at a time. -/
inductive Change (p : Policy) (now : ℤ) (s : State) : State × Effects → Prop where
  | quiet {phase : Phase} {since : ℤ} {deadline : Option ℤ} (hside : phase.isRaised = s.phase.isRaised) :
      Change p now s (s.moved phase since deadline, .none)
  | activate (hlow : s.phase.isRaised = false) (hready : s.notBefore ≤ now) :
      Change p now s (s.activated p now, .of ((s.activated p now).event now .activate true))
  | defer (hlow : s.phase.isRaised = false) (hwait : now < s.notBefore) :
      Change p now s (s.deferred now, .of ((s.deferred now).event now .activate false))
  | resolve (hraised : s.phase.isRaised = true) :
      Change p now s (s.resolved p now, { Effects.of ((s.resolved p now).event now .resolve true) with
        notificationCancelled := s.notificationSince.isSome })
  | notify {since : ℤ} (hsince : s.notificationSince = some since) (hready : s.notBefore ≤ now)
      (hage : now < since + p.notificationMaxAgeMicros) :
      Change p now s (s.notified p now, .of ((s.notified p now).event now .notify true))
  | expire {since : ℤ} (hsince : s.notificationSince = some since)
      (hage : since + p.notificationMaxAgeMicros ≤ now) :
      Change p now s (s.unnotified, { Effects.none with notificationExpired := true })

variable {p : Policy} {now : ℤ} {s s' : State} {x : State × Effects}

theorem add_eq_ok {a b c : ℤ} (h : add a b = .ok c) : c = a + b := (checkedAddI_eq_ok.mp h).2

theorem activate_ok (h : s.activate p now = .ok x) :
    (s.notBefore ≤ now ∧ x = (s.activated p now, .of ((s.activated p now).event now .activate true))) ∨
      (now < s.notBefore ∧ x = (s.deferred now, .of ((s.deferred now).event now .activate false))) := by
  obtain ⟨_, -, h⟩ := bind_eq_ok.mp h
  dsimp only at h
  split_ifs at h with hr
  · obtain ⟨notBefore, ha, h⟩ := bind_eq_ok.mp h
    obtain rfl := add_eq_ok ha
    exact .inl ⟨hr, (Except.ok.inj h).symm⟩
  · obtain ⟨_, -, h⟩ := bind_eq_ok.mp h
    exact .inr ⟨not_le.mp hr, (Except.ok.inj h).symm⟩

theorem activate_change (hl : s.phase.isRaised = false) (h : s.activate p now = .ok x) : Change p now s x := by
  rcases activate_ok h with ⟨hr, rfl⟩ | ⟨hw, rfl⟩
  · exact .activate hl hr
  · exact .defer hl hw

theorem resolve_ok (h : s.resolve p now = .ok x) :
    x = (s.resolved p now, { Effects.of ((s.resolved p now).event now .resolve true) with
      notificationCancelled := s.notificationSince.isSome }) := by
  obtain ⟨notBefore, ha, h⟩ := bind_eq_ok.mp h
  obtain rfl := add_eq_ok ha
  exact (Except.ok.inj h).symm

theorem nextDeadline_ok {next : Option ℤ} (h : s.nextDeadline p = .ok next) :
    next = earlier s.deadline
      (s.notificationSince.map fun since => min s.notBefore (since + p.notificationMaxAgeMicros)) := by
  obtain ⟨notification, hn, h⟩ := bind_eq_ok.mp h
  cases h
  unfold notificationDeadline at hn
  cases hs : s.notificationSince with
  | none =>
    rw [hs] at hn
    cases hn
    rfl
  | some since =>
    rw [hs] at hn
    obtain ⟨expiry, ha, hn⟩ := bind_eq_ok.mp hn
    cases hn
    rw [add_eq_ok ha]
    rfl

/-! ### What the phase knows of the samples -/

structure Sample where
  time : ℤ
  enter : Bool
  clear : Bool

/-- The phase and its timer, as the samples so far determine them. -/
def State.Condition (p : Policy) (samples : List Sample) (s : State) : Prop :=
  match s.phase with
  | .normal => s.deadline = none ∧ heldSince Sample.time Sample.enter samples = none
  | .pending => 0 < p.activateMicros ∧ s.deadline = some (s.since + p.activateMicros) ∧
      heldSince Sample.time Sample.enter samples = some s.since
  | .active => s.deadline = none ∧ heldSince Sample.time Sample.clear samples = none
  | .recovering => 0 < p.resolveMicros ∧ s.deadline = some (s.since + p.resolveMicros) ∧
      heldSince Sample.time Sample.clear samples = some s.since

/-- What a state between two calls satisfies. -/
structure Watch (p : Policy) (samples : List Sample) (s : State) : Prop where
  condition : s.Condition p samples
  raised : ∀ since, s.notificationSince = some since → s.phase.isRaised = true
  exclusive : ∀ a ∈ samples, (a.enter && a.clear) = false

variable {f : Sample → Bool} {since : ℤ}

theorem heldSince_exclusive {g : Sample → Bool} {samples : List Sample}
    (hex : ∀ a ∈ samples, (f a && g a) = false) (h : heldSince Sample.time f samples = some since) :
    heldSince Sample.time g samples = none := by
  rcases eq_nil_or_concat samples with rfl | ⟨rest, a, rfl⟩
  · rfl
  · rw [concat_eq_append] at h hex ⊢
    rw [heldSince_concat] at h ⊢
    have ha := hex a (by simp)
    split_ifs at h with hf
    rw [hf, Bool.true_and] at ha
    simp [ha]

variable {samples : List Sample} {enter clear : Bool} {next : Option ℤ}

theorem isDue_earlier (a b : Option ℤ) : isDue now (earlier a b) = (isDue now a || isDue now b) := by
  cases a <;> cases b <;> simp [isDue, earlier, Bool.decide_or]

/-! The two sides of the life cycle differ in what ends them. -/

def Phase.waiting : Bool → Phase
  | false => .pending
  | true => .recovering

def Phase.resting : Bool → Phase
  | false => .normal
  | true => .active

def Sample.ends : Bool → Sample → Bool
  | false => Sample.enter
  | true => Sample.clear

def Policy.hold (p : Policy) : Bool → ℤ
  | false => p.activateMicros
  | true => p.resolveMicros

def EventKind.ending : Bool → EventKind
  | false => .activate
  | true => .resolve

variable {side : Bool}

theorem isRaised_waiting : (Phase.waiting side).isRaised = side := by cases side <;> rfl

theorem isRaised_resting : (Phase.resting side).isRaised = side := by cases side <;> rfl

theorem Watch.held (hw : Watch p samples s) (hs : s.phase.isRaised = side) :
    heldSince Sample.time (Sample.ends side) samples = if s.phase = .waiting side then some s.since else none := by
  obtain rfl := hs
  have hc := hw.condition
  unfold State.Condition at hc
  cases hp : s.phase <;> rw [hp] at hc
  case normal | active => exact hc.2
  case pending | recovering => exact hc.2.2

theorem Watch.deadline (hw : Watch p samples s) (hp : s.phase = .waiting side) :
    s.deadline = some (s.since + p.hold side) := by
  have hc := hw.condition
  unfold State.Condition at hc
  rw [hp] at hc
  cases side <;> exact hc.2.1

/-- What one call of `due` can do, and when. -/
inductive Due (p : Policy) (now : ℤ) (s : State) : State × Effects → Prop where
  | activate {x : State × Effects} (hphase : s.phase = .pending) (htime : s.since + p.activateMicros ≤ now)
      (h : s.activate p now = .ok x) : Due p now s x
  | resolve {x : State × Effects} (hphase : s.phase = .recovering) (htime : s.since + p.resolveMicros ≤ now)
      (h : s.resolve p now = .ok x) : Due p now s x
  | notification {x : State × Effects} (hwaits : s.notificationSince.isSome = true) (h : Change p now s x)
      (hphase : x.1.phase = s.phase) (hsince : x.1.since = s.since) (hdeadline : x.1.deadline = s.deadline)
      (hnone : x.1.notificationSince = none) (hkind : ∀ e, x.2.event = some e → e.kind = .notify) : Due p now s x

theorem due_condition (hw : Watch p samples s) (hd : isDue now s.deadline = true)
    (h : (match s.phase with
      | .pending => s.activate p now
      | .recovering => s.resolve p now
      | _ => .error (invalid "alarm condition timer has no pending transition")) = Except.ok x) : Due p now s x := by
  have hc := hw.condition
  unfold State.Condition at hc
  cases hp : s.phase with
  | normal => simp [hp] at h
  | active => simp [hp] at h
  | pending =>
    rw [hp] at h hc
    rw [hc.2.1] at hd
    exact .activate hp (by simpa [isDue] using hd) h
  | recovering =>
    rw [hp] at h hc
    rw [hc.2.1] at hd
    exact .resolve hp (by simpa [isDue] using hd) h

theorem due_ok (hw : Watch p samples s) (hn : s.nextDeadline p = .ok next) (hdu : isDue now next = true)
    (h : s.due p now = .ok x) : Due p now s x := by
  replace h := after_check (after_check h)
  obtain ⟨next', hn', h⟩ := bind_eq_ok.mp h
  cases hn.symm.trans hn'
  split_ifs at h with hc
  · exact due_condition hw (hc ▸ hdu) h
  · cases hs : s.notificationSince with
    | none => simp [hs] at h
    | some since =>
      have hwa : s.notificationSince.isSome = true := by rw [hs]; rfl
      simp only [hs] at h
      obtain ⟨expiry, ha, h⟩ := bind_eq_ok.mp h
      obtain rfl := add_eq_ok ha
      split_ifs at h with hag
      · cases h
        exact .notification hwa (.expire hs hag) rfl rfl rfl rfl (by rintro e ⟨⟩)
      · obtain ⟨notBefore, ha, h⟩ := bind_eq_ok.mp h
        obtain rfl := add_eq_ok ha
        cases h
        -- the deadline is the notification's, and its age is not what made it due
        have hr : s.notBefore ≤ now := by
          have hn := nextDeadline_ok hn
          rw [hs, map_some] at hn
          rcases hd : s.deadline with _ | deadline
          · rw [hd] at hn
            rw [hn] at hdu
            simp only [earlier, isDue, any_some, decide_eq_true_eq] at hdu
            omega
          · rw [hd] at hn hc
            simp only [earlier] at hn
            rw [hn] at hdu hc
            simp only [isDue, any_some, decide_eq_true_eq] at hdu
            simp only [some.injEq] at hc
            omega
        exact .notification hwa (.notify hs hr (not_le.mp hag)) rfl rfl rfl rfl (by rintro e ⟨⟩; rfl)

theorem Due.change (h : Due p now s x) : Change p now s x := by
  cases h with
  | activate hp _ h => exact activate_change (by rw [hp]; rfl) h
  | resolve hp _ h =>
    obtain rfl := resolve_ok h
    exact .resolve (by rw [hp]; rfl)
  | notification _ h => exact h

theorem activate_watch (hex : ∀ a ∈ samples, (a.enter && a.clear) = false)
    (hc : heldSince Sample.time Sample.clear samples = none) (h : s.activate p now = .ok x) :
    Watch p samples x.1 := by
  rcases activate_ok h with ⟨-, rfl⟩ | ⟨-, rfl⟩
  · exact ⟨⟨rfl, hc⟩, (fun _ h => nomatch h), hex⟩
  · exact ⟨⟨rfl, hc⟩, fun _ _ => rfl, hex⟩

theorem resolve_watch (hex : ∀ a ∈ samples, (a.enter && a.clear) = false)
    (he : heldSince Sample.time Sample.enter samples = none) (h : s.resolve p now = .ok x) :
    Watch p samples x.1 := by
  obtain rfl := resolve_ok h
  exact ⟨⟨rfl, he⟩, (fun _ h => nomatch h), hex⟩

theorem Due.watch (hw : Watch p samples s) (h : Due p now s x) : Watch p samples x.1 := by
  have hc := hw.condition
  unfold State.Condition at hc
  cases h with
  | activate hp _ h =>
    rw [hp] at hc
    exact activate_watch hw.exclusive (heldSince_exclusive hw.exclusive hc.2.2) h
  | resolve hp _ h =>
    rw [hp] at hc
    refine resolve_watch hw.exclusive (heldSince_exclusive (fun a ha => ?_) hc.2.2) h
    rw [Bool.and_comm]
    exact hw.exclusive a ha
  | notification hr h hp hs hd hn =>
    refine ⟨?_, fun since h => ?_, hw.exclusive⟩
    · unfold State.Condition
      rwa [hp, hs, hd]
    · rw [hn] at h
      cases h

theorem activate_quiet (ha : 0 < p.notificationMaxAgeMicros) (h : s.activate p now = .ok x)
    (hn : x.1.nextDeadline p = .ok next) : isDue now next = false := by
  rw [nextDeadline_ok hn]
  rcases activate_ok h with ⟨-, rfl⟩ | ⟨hw, rfl⟩
  · rfl
  · simp [deferred, earlier, isDue, hw, ha]

theorem resolve_quiet (h : s.resolve p now = .ok x) (hn : x.1.nextDeadline p = .ok next) :
    isDue now next = false := by
  obtain rfl := resolve_ok h
  rw [nextDeadline_ok hn]
  rfl

/-- A call's transitions, one after the other. -/
inductive Changes (p : Policy) (now : ℤ) : State → List (State × Effects) → Prop where
  | nil {s : State} : Changes p now s []
  | cons {s : State} {x : State × Effects} {rest : List (State × Effects)} (h : Change p now s x)
      (hrest : Changes p now x.1 rest) : Changes p now s (x :: rest)

def reports (kind : EventKind) (x : State × Effects) : Bool := x.2.event.any fun e => e.kind = kind

/-- All that due work at a time can be. -/
inductive Drained (p : Policy) (now : ℤ) : State → List (State × Effects) → Prop where
  | none {s : State} (hquiet : isDue now s.deadline = false) : Drained p now s []
  | activate {s : State} {x : State × Effects} (hphase : s.phase = .pending)
      (htime : s.since + p.activateMicros ≤ now) (h : s.activate p now = .ok x) : Drained p now s [x]
  | resolve {s : State} {x : State × Effects} (hphase : s.phase = .recovering)
      (htime : s.since + p.resolveMicros ≤ now) (h : s.resolve p now = .ok x) : Drained p now s [x]
  | notification {s : State} {x : State × Effects} {rest : List (State × Effects)} (h : Due p now s x)
      (hphase : x.1.phase = s.phase) (hsince : x.1.since = s.since)
      (hkind : ∀ e, x.2.event = some e → e.kind = .notify) (hrest : Drained p now x.1 rest) :
      Drained p now s (x :: rest)

theorem reports_of_kind {kind kind' : EventKind} (h : ∀ e, x.2.event = some e → e.kind = kind) (hne : kind ≠ kind') :
    reports kind' x = false := by
  unfold reports
  cases he : x.2.event with
  | none => rfl
  | some e => simp [h e he, hne]

theorem after_cons (s : State) (x : State × Effects) (rest : List (State × Effects)) :
    after s (x :: rest) = after x.1 rest := by
  cases rest with
  | nil => rfl
  | cons y rest =>
    obtain ⟨last, hl⟩ := Option.isSome_iff_exists.mp (List.getLast?_isSome.mpr (cons_ne_nil y rest))
    simp [after, getLast?_cons_cons, hl]

theorem activate_reports (h : s.activate p now = .ok x) : reports .activate x = true := by
  rcases activate_ok h with ⟨-, rfl⟩ | ⟨-, rfl⟩ <;> rfl

variable {drained : List (State × Effects)}

theorem drainFor_quiet {n : ℕ} (hq : ∀ next, s.nextDeadline p = .ok next → isDue now next = false)
    (h : drainFor p now n s = .ok drained) : drained = [] := by
  cases n with
  | zero => exact (Except.ok.inj h).symm
  | succ n =>
    obtain ⟨next, hn, h⟩ := bind_eq_ok.mp h
    rw [if_neg (by simp [hq next hn])] at h
    exact (Except.ok.inj h).symm

theorem deadline_quiet (hn : s.nextDeadline p = .ok next) (h : isDue now next = false) :
    isDue now s.deadline = false := by
  rw [nextDeadline_ok hn, isDue_earlier, Bool.or_eq_false_iff] at h
  exact h.1

theorem drainFor_ok {n : ℕ} (ha : 0 < p.notificationMaxAgeMicros)
    (hw : Watch p samples s) (hn : s.notificationSince.isSome.toNat < n)
    (h : drainFor p now n s = .ok drained) :
    Drained p now s drained ∧ ∀ next, (after s drained).nextDeadline p = .ok next → isDue now next = false := by
  induction n generalizing s drained with
  | zero => omega
  | succ n ih =>
    obtain ⟨next, hne, h⟩ := bind_eq_ok.mp h
    split_ifs at h with hd
    · obtain ⟨x, hx, h⟩ := bind_eq_ok.mp h
      obtain ⟨rest, hr, h⟩ := bind_eq_ok.mp h
      cases h
      have hf := due_ok hw hne hd hx
      cases id hf with
      | activate hp ht hx =>
        have hq : ∀ next, x.1.nextDeadline p = .ok next → isDue now next = false :=
          fun _ => activate_quiet ha hx
        obtain rfl := drainFor_quiet hq hr
        exact ⟨.activate hp ht hx, hq⟩
      | resolve hp ht hx =>
        have hq : ∀ next, x.1.nextDeadline p = .ok next → isDue now next = false :=
          fun _ => resolve_quiet hx
        obtain rfl := drainFor_quiet hq hr
        exact ⟨.resolve hp ht hx, hq⟩
      | notification hwa _ hp hs _ hno hk =>
        rw [hwa, Bool.toNat_true] at hn
        obtain ⟨hr, hq⟩ := ih (hf.watch hw) (by rw [hno]; exact Nat.lt_of_succ_lt_succ hn) hr
        refine ⟨.notification hf hp hs hk hr, fun next hne => hq next ?_⟩
        rwa [after_cons] at hne
    · cases h
      have hq : isDue now next = false := by simpa using hd
      refine ⟨.none (deadline_quiet hne hq), fun next' hn' => ?_⟩
      cases hne.symm.trans hn'
      exact hq

/-- **Two rounds make all due work.** -/
theorem drain_quiet (ha : 0 < p.notificationMaxAgeMicros)
    (hw : Watch p samples s) (h : s.drain p now = .ok drained) :
    Drained p now s drained ∧ ∀ next, (after s drained).nextDeadline p = .ok next → isDue now next = false := by
  refine drainFor_ok ha hw ?_ h
  cases s.notificationSince <;> simp

/-! ### What due work does -/

namespace Drained

variable {drained : List (State × Effects)}

theorem changes (h : Drained p now s drained) : Changes p now s drained := by
  induction h with
  | none => exact .nil
  | activate hp _ h => exact .cons (activate_change (by rw [hp]; rfl) h) .nil
  | resolve hp _ h =>
    obtain rfl := resolve_ok h
    exact .cons (.resolve (by rw [hp]; rfl)) .nil
  | notification h _ _ _ _ ih => exact .cons h.change ih

theorem watch (hw : Watch p samples s) (h : Drained p now s drained) : Watch p samples (after s drained) := by
  induction h with
  | none => exact hw
  | activate hp ht h => exact Due.watch hw (.activate hp ht h)
  | resolve hp ht h => exact Due.watch hw (.resolve hp ht h)
  | notification h _ _ _ _ ih =>
    rw [after_cons]
    exact ih (h.watch hw)

theorem reports_iff (hw : Watch p samples s) (h : Drained p now s drained) :
    drained.any (reports (.ending side)) = true ↔ s.phase = .waiting side ∧ s.since + p.hold side ≤ now := by
  induction h with
  | none hq =>
    simp only [any_nil, Bool.false_eq_true, false_iff, not_and, not_le]
    intro hp
    rw [hw.deadline hp] at hq
    simpa [isDue] using hq
  | activate hp ht h =>
    cases side with
    | false => simp [EventKind.ending, activate_reports h, hp, ht, Phase.waiting, Policy.hold]
    | true =>
      rcases activate_ok h with ⟨-, rfl⟩ | ⟨-, rfl⟩ <;>
        simp [EventKind.ending, Phase.waiting, hp, reports, Effects.of, event]
  | resolve hp ht h =>
    obtain rfl := resolve_ok h
    cases side <;>
      simp [EventKind.ending, Phase.waiting, Policy.hold, hp, ht, reports, Effects.of, event]
  | notification h hp hs hk _ ih =>
    rw [any_cons, ← hp, ← hs, ← ih (h.watch hw), reports_of_kind hk (by cases side <;> decide),
      Bool.false_or]

end Drained

/-! ### What a sample does -/

structure Observed (p : Policy) (samples : List Sample) (s : State) (a : Sample) (x : State × Effects) : Prop where
  change : Change p a.time s x
  watch : Watch p (samples ++ [a]) x.1
  activates : reports .activate x = true ↔ s.phase = .normal ∧ a.enter = true ∧ p.activateMicros = 0
  resolves : reports .resolve x = true ↔ s.phase = .active ∧ a.clear = true ∧ p.resolveMicros = 0

variable {a : Sample}

theorem Observed.reports_iff (h : Observed p samples s a x) :
    reports (.ending side) x = true ↔ s.phase = .resting side ∧ a.ends side = true ∧ p.hold side = 0 := by
  cases side
  · exact h.activates
  · exact h.resolves

theorem Observed.moved {phase : Phase} {deadline : Option ℤ} (hw : Watch p samples s)
    (hex : ∀ b ∈ samples ++ [a], (b.enter && b.clear) = false) (hs : phase.isRaised = s.phase.isRaised)
    (hco : (s.moved phase since deadline).Condition p (samples ++ [a]))
    (he : ¬ (s.phase = .normal ∧ a.enter = true ∧ p.activateMicros = 0))
    (hc : ¬ (s.phase = .active ∧ a.clear = true ∧ p.resolveMicros = 0)) :
    Observed p samples s a (s.moved phase since deadline, .none) where
  change := .quiet hs
  watch := ⟨hco, fun t ht => hs ▸ hw.raised t ht, hex⟩
  activates := by simpa [reports, Effects.none] using he
  resolves := by simpa [reports, Effects.none] using hc

theorem observe_ok (hw : Watch p samples s) (h : s.observe p now enter clear = .ok x) :
    Observed p samples s ⟨now, enter, clear⟩ x := by
  obtain ⟨hv, h⟩ := guard_eq_ok.mp h
  obtain ⟨hg, h⟩ := guard_eq_ok.mp h
  obtain ⟨next, -, h⟩ := bind_eq_ok.mp h
  replace h := after_check h
  have hn : (enter && clear) = false := by
    rw [not_or, not_or] at hg
    simpa using hg.2.2
  have hex : ∀ a ∈ samples ++ [⟨now, enter, clear⟩], (a.enter && a.clear) = false :=
    forall_mem_concat.mpr ⟨hw.exclusive, hn⟩
  have hc := hw.condition
  unfold State.Condition at hc
  cases hp : s.phase with
  | normal =>
    rw [hp] at h hc
    cases enter with
    | false =>
      cases h
      refine .moved hw hex rfl ?_ (by simp) (by simp [hp])
      simp [State.Condition, moved, hp, hc, heldSince_concat]
    | true =>
      obtain rfl : clear = false := by simpa using hn
      dsimp only at h
      split_ifs at h with hz
      · refine ⟨activate_change (by rw [hp]; rfl) h, activate_watch hex (by simp [heldSince_concat]) h, ?_, ?_⟩
        · simp [activate_reports h, hp, hz]
        · rcases activate_ok h with ⟨-, rfl⟩ | ⟨-, rfl⟩ <;> simp [reports, Effects.of, event]
      · obtain ⟨deadline, ha, h⟩ := bind_eq_ok.mp h
        obtain rfl := add_eq_ok ha
        cases h
        refine .moved hw hex (by rw [hp]; rfl) ?_ (by simp [hz]) (by simp)
        have hpo : 0 < p.activateMicros := by omega
        simp [State.Condition, moved, hc, heldSince_concat, hpo]
  | pending =>
    rw [hp] at h hc
    cases enter with
    | false =>
      cases h
      refine .moved hw hex (by rw [hp]; rfl) ?_ (by simp) (by simp [hp])
      simp [State.Condition, moved, heldSince_concat]
    | true =>
      obtain rfl : clear = false := by simpa using hn
      cases h
      refine .moved hw hex rfl ?_ (by simp [hp]) (by simp)
      simp [State.Condition, moved, hp, hc, heldSince_concat]
  | active =>
    rw [hp] at h hc
    cases clear with
    | false =>
      obtain rfl : x = (s, .none) := by cases enter <;> exact (Except.ok.inj h).symm
      refine .moved hw hex rfl ?_ (by simp [hp]) (by simp)
      simp [State.Condition, moved, hp, hc, heldSince_concat]
    | true =>
      obtain rfl : enter = false := by simpa using hn
      dsimp only at h
      split_ifs at h with hz
      · have hwa := resolve_watch hex (by simp [heldSince_concat]) h
        obtain rfl := resolve_ok h
        refine ⟨.resolve (by rw [hp]; rfl), hwa, ?_, ?_⟩
        · simp [reports, Effects.of, event]
        · simp [reports, Effects.of, event, hp, hz]
      · obtain ⟨deadline, ha, h⟩ := bind_eq_ok.mp h
        obtain rfl := add_eq_ok ha
        cases h
        refine .moved hw hex (by rw [hp]; rfl) ?_ (by simp) (by simp [hz])
        have hpo : 0 < p.resolveMicros := by omega
        simp [State.Condition, moved, hc, heldSince_concat, hpo]
  | recovering =>
    rw [hp] at h hc
    cases clear with
    | false =>
      obtain rfl : x = (s.moved .active now none, .none) := by cases enter <;> exact (Except.ok.inj h).symm
      refine .moved hw hex (by rw [hp]; rfl) ?_ (by simp [hp]) (by simp)
      simp [State.Condition, moved, heldSince_concat]
    | true =>
      obtain rfl : enter = false := by simpa using hn
      cases h
      refine .moved hw hex rfl ?_ (by simp) (by simp [hp])
      simp [State.Condition, moved, hp, hc, heldSince_concat]

/-! ### Activations and resolutions -/

def events (log : List (State × Effects)) : List Event := log.filterMap fun x => x.2.event

def transitions (log : List (State × Effects)) : List Event := (events log).filter fun e => e.kind ≠ .notify

def raised (log : List (State × Effects)) : Bool := (transitions log).getLast?.any fun e => e.kind = .activate

variable {log : List (State × Effects)}

theorem events_concat : events (log ++ [x]) = events log ++ x.2.event.toList := by
  cases h : x.2.event <;> simp [events, h]

theorem transitions_concat :
    transitions (log ++ [x]) = transitions log ++ x.2.event.toList.filter fun e => e.kind ≠ .notify := by
  rw [transitions, events_concat, filter_append, transitions]

/-- Activations and resolutions alternate, and each pair has its number. -/
structure Lifecycle (log : List (State × Effects)) (s : State) : Prop where
  alternates : ∀ i e, (transitions log)[i]? = some e →
    e.kind = (if i % 2 = 0 then .activate else .resolve) ∧ e.episode = i / 2 + 1
  length : (transitions log).length + s.phase.isRaised.toNat = 2 * s.episode

namespace Lifecycle

theorem concat {e : Event} (hl : Lifecycle log s) (ht : transitions (log ++ [x]) = transitions log ++ [e])
    (hk : e.kind = if (transitions log).length % 2 = 0 then .activate else .resolve)
    (he : e.episode = (transitions log).length / 2 + 1)
    (hle : (transitions log).length + 1 + s'.phase.isRaised.toNat = 2 * s'.episode) :
    Lifecycle (log ++ [x]) s' := by
  refine ⟨fun i e' he' => ?_, by rw [ht, length_append]; exact hle⟩
  rw [ht] at he'
  rcases lt_trichotomy i (transitions log).length with hi | rfl | hi
  · rw [getElem?_append_left hi] at he'
    exact hl.alternates i e' he'
  · rw [getElem?_concat_length] at he'
    cases he'
    exact ⟨hk, he⟩
  · rw [getElem?_eq_none (by simpa using Nat.succ_le_of_lt hi)] at he'
    cases he'

theorem keep (hl : Lifecycle log s) (hev : (x.2.event.toList.filter fun e => e.kind ≠ .notify) = [])
    (hs : s'.phase.isRaised = s.phase.isRaised) (hep : s'.episode = s.episode) :
    Lifecycle (log ++ [x]) s' := by
  have ht : transitions (log ++ [x]) = transitions log := by rw [transitions_concat, hev, append_nil]
  refine ⟨fun i e he => hl.alternates i e (ht ▸ he), ?_⟩
  rw [ht, hs, hep]
  exact hl.length

theorem change (hl : Lifecycle log s) (h : Change p now s x) : Lifecycle (log ++ [x]) x.1 := by
  have hle := hl.length
  cases h with
  | quiet hs => exact hl.keep rfl hs rfl
  | activate hlo =>
    rw [hlo, Bool.toNat_false] at hle
    refine hl.concat (e := (s.activated p now).event now .activate true) ?_ ?_ ?_ ?_
    · simp [transitions_concat, Effects.of, event]
    · rw [if_pos (by omega)]; rfl
    · simp only [event, activated]; omega
    · simp only [activated, Phase.isRaised, Bool.toNat_true]; omega
  | defer hlo =>
    rw [hlo, Bool.toNat_false] at hle
    refine hl.concat (e := (s.deferred now).event now .activate false) ?_ ?_ ?_ ?_
    · simp [transitions_concat, Effects.of, event]
    · rw [if_pos (by omega)]; rfl
    · simp only [event, deferred]; omega
    · simp only [deferred, Phase.isRaised, Bool.toNat_true]; omega
  | resolve hr =>
    rw [hr, Bool.toNat_true] at hle
    refine hl.concat (e := (s.resolved p now).event now .resolve true) ?_ ?_ ?_ ?_
    · simp [transitions_concat, Effects.of, event]
    · rw [if_neg (by omega)]; rfl
    · simp only [event, resolved]; omega
    · simp only [resolved, Phase.isRaised, Bool.toNat_false]; omega
  | notify | expire => exact hl.keep rfl rfl rfl

theorem raised_eq (hl : Lifecycle log s) : raised log = s.phase.isRaised := by
  have hle := hl.length
  unfold raised
  rw [getLast?_eq_getElem?]
  cases hla : (transitions log)[(transitions log).length - 1]? with
  | none =>
    rw [List.getElem?_eq_none_iff] at hla
    cases hr : s.phase.isRaised with
    | false => rfl
    | true =>
      rw [hr, Bool.toNat_true] at hle
      omega
  | some e =>
    obtain ⟨hlt, -⟩ := List.getElem?_eq_some_iff.mp hla
    obtain ⟨hk, -⟩ := hl.alternates _ _ hla
    rw [any_some, hk]
    cases hr : s.phase.isRaised with
    | false =>
      rw [hr, Bool.toNat_false] at hle
      rw [if_neg (by omega)]
      rfl
    | true =>
      rw [hr, Bool.toNat_true] at hle
      rw [if_pos (by omega)]
      rfl

end Lifecycle

/-! ### Notifications -/

/-- What the log says of the cooldown and of a held notification. -/
structure Notices (p : Policy) (log : List (State × Effects)) (s : State) (now : ℤ) : Prop where
  past : ∀ e ∈ events log, e.time ≤ now
  cooled : ∀ e ∈ events log, e.notify = true → e.time + p.cooldownMicros ≤ s.notBefore
  spaced : (events log).Pairwise fun e e' =>
    e.notify = true → e'.notify = true → e'.kind ≠ .resolve → e.time + p.cooldownMicros ≤ e'.time
  waits : ∀ since, s.notificationSince = some since →
    ∃ a ∈ events log, a.kind = .activate ∧ a.episode = s.episode ∧ a.time = since
  aged : ∀ e ∈ events log, e.kind = .notify → ∃ a ∈ events log,
    a.kind = .activate ∧ a.episode = e.episode ∧ e.time < a.time + p.notificationMaxAgeMicros

namespace Notices

variable {before : ℤ}

theorem later (hn : Notices p log s before) (hle : before ≤ now) : Notices p log s now :=
  { hn with past := fun e he => (hn.past e he).trans hle }

theorem keep (hn : Notices p log s now) (hev : x.2.event = none) (hb : s'.notBefore = s.notBefore)
    (hw : ∀ since, s'.notificationSince = some since →
      s.notificationSince = some since ∧ s'.episode = s.episode) : Notices p (log ++ [x]) s' now := by
  have he : events (log ++ [x]) = events log := by simp [events_concat, hev]
  refine ⟨he ▸ hn.past, ?_, he ▸ hn.spaced, fun since hs => ?_, he ▸ hn.aged⟩
  · rw [he, hb]
    exact hn.cooled
  · obtain ⟨hs, hep⟩ := hw since hs
    rw [he, hep]
    exact hn.waits since hs

variable {e : Event}

theorem report (hn : Notices p log s now) (hev : x.2.event = some e) (ht : e.time = now)
    (hc : ∀ e' ∈ events log ++ [e], e'.notify = true → e'.time + p.cooldownMicros ≤ s'.notBefore)
    (hr : e.notify = true → e.kind ≠ .resolve → s.notBefore ≤ now)
    (hw : ∀ since, s'.notificationSince = some since → e.kind = .activate ∧ e.episode = s'.episode ∧ since = now)
    (hage : e.kind = .notify → ∃ a ∈ events log, a.kind = .activate ∧ a.episode = e.episode ∧
      now < a.time + p.notificationMaxAgeMicros) : Notices p (log ++ [x]) s' now := by
  have he : events (log ++ [x]) = events log ++ [e] := by simp [events_concat, hev]
  rw [← he] at hc
  refine ⟨?_, hc, ?_, fun since hs => ?_, ?_⟩
  · rw [he]
    exact forall_mem_concat.mpr ⟨hn.past, ht.le⟩
  · rw [he]
    refine pairwise_concat.mpr ⟨hn.spaced, fun e' he' hn' hno hk => ?_⟩
    have := hn.cooled e' he' hn'
    have := hr hno hk
    omega
  · obtain ⟨hk, hep, rfl⟩ := hw since hs
    exact ⟨e, by simp [he], hk, hep, ht⟩
  · rw [he]
    refine forall_mem_concat.mpr ⟨fun e' he' hk => ?_, fun hk => ?_⟩
    · obtain ⟨a, ha, hre⟩ := hn.aged e' he' hk
      exact ⟨a, mem_append_left _ ha, hre⟩
    · obtain ⟨a, ha, hak, hep, hag⟩ := hage hk
      exact ⟨a, mem_append_left _ ha, hak, hep, ht ▸ hag⟩

theorem cooled_now (hn : Notices p log s now) (ht : e.time = now) :
    ∀ e' ∈ events log ++ [e], e'.notify = true → e'.time + p.cooldownMicros ≤ now + p.cooldownMicros :=
  forall_mem_concat.mpr
    ⟨fun e' he' _ => Int.add_le_add_right (hn.past e' he') _, fun _ => Int.add_le_add_right ht.le _⟩

theorem change (hn : Notices p log s now) (h : Change p now s x) : Notices p (log ++ [x]) x.1 now := by
  cases h with
  | quiet => exact hn.keep rfl rfl fun since h => ⟨h, rfl⟩
  | activate _ hr => exact hn.report rfl rfl (hn.cooled_now rfl) (fun _ _ => hr) nofun nofun
  | defer _ hw =>
    exact hn.report rfl rfl (forall_mem_concat.mpr ⟨hn.cooled, nofun⟩) nofun
      (fun since h => ⟨rfl, rfl, (some.inj h).symm⟩) nofun
  | resolve => exact hn.report rfl rfl (hn.cooled_now rfl) (fun _ h => absurd rfl h) nofun nofun
  | notify hs hr hag =>
    refine hn.report rfl rfl (hn.cooled_now rfl) (fun _ _ => hr) nofun fun _ => ?_
    obtain ⟨a, ha, hk, he, rfl⟩ := hn.waits _ hs
    exact ⟨a, ha, hk, he, hag⟩
  | expire => exact hn.keep rfl rfl nofun

end Notices

/-! ### Notifications per episode -/

def notifies (n : ℕ) (x : State × Effects) : Bool := x.2.event.any fun e => e.notify ∧ e.kind ≠ .resolve ∧ e.episode = n

def defers (n : ℕ) (x : State × Effects) : Bool :=
  x.2.event.any fun e => ¬ e.notify ∧ e.kind = .activate ∧ e.episode = n

/-- How many ends a waiting notification of an episode finds: it is sent, too old or dropped. -/
def ends (n : ℕ) (x : State × Effects) : ℕ :=
  if x.1.episode = n then
    (reports .notify x).toNat + x.2.notificationExpired.toNat + x.2.notificationCancelled.toNat
  else 0

def State.waitsFor (s : State) (n : ℕ) : Bool := s.episode = n ∧ s.notificationSince.isSome

/-- At most one notification an episode, deferred or not. -/
structure Counts (log : List (State × Effects)) (s : State) : Prop where
  known : ∀ x ∈ log, x.1.episode ≤ s.episode ∧ ∀ e, x.2.event = some e → e.episode = x.1.episode
  single : ∀ n, log.countP (notifies n) + (s.waitsFor n).toNat ≤ 1
  balance : ∀ n, log.countP (defers n) = (log.map (ends n)).sum + (s.waitsFor n).toNat
  once : ∀ n, log.countP (defers n) ≤ 1

namespace Counts

variable {n : ℕ}

theorem future (hc : Counts log s) (hn : s.episode < n) : log.countP (notifies n) = 0 ∧ log.countP (defers n) = 0 := by
  have hne : ∀ x ∈ log, ∀ e, x.2.event = some e → e.episode ≠ n := fun x hx e he => by
    obtain ⟨hle, hep⟩ := hc.known x hx
    have := hep e he
    omega
  refine ⟨List.countP_eq_zero.mpr fun x hx => ?_, List.countP_eq_zero.mpr fun x hx => ?_⟩
  · cases he : x.2.event with
    | none => simp [notifies, he]
    | some e => simp [notifies, he, hne x hx e he]
  · cases he : x.2.event with
    | none => simp [defers, he]
    | some e => simp [defers, he, hne x hx e he]

theorem countP_concat (f : State × Effects → Bool) (x : State × Effects) :
    (log ++ [x]).countP f = log.countP f + (f x).toNat := by
  cases h : f x <;> simp [countP_append, h]

theorem concat (hc : Counts log s) (he : s.episode ≤ x.1.episode)
    (hev : ∀ e, x.2.event = some e → e.episode = x.1.episode)
    (hs : ∀ n, log.countP (notifies n) + (notifies n x).toNat + (x.1.waitsFor n).toNat ≤ 1)
    (hb : ∀ n, (defers n x).toNat + (s.waitsFor n).toNat = ends n x + (x.1.waitsFor n).toNat)
    (ho : ∀ n, log.countP (defers n) + (defers n x).toNat ≤ 1) : Counts (log ++ [x]) x.1 := by
  refine ⟨forall_mem_concat.mpr ⟨fun y hy => ?_, le_rfl, hev⟩, fun n => ?_, fun n => ?_, fun n => ?_⟩
  · exact ⟨(hc.known y hy).1.trans he, (hc.known y hy).2⟩
  · rw [countP_concat]
    exact hs n
  · rw [countP_concat, map_append, sum_append, map_singleton, sum_singleton]
    have := hc.balance n
    have := hb n
    omega
  · rw [countP_concat]
    exact ho n

theorem activation {notify : Bool} (hc : Counts log s) (hno : s.notificationSince = none)
    (hep : x.1.episode = s.episode + 1)
    (hev : x.2 = .of { kind := .activate, phase := .active, episode := s.episode + 1, notify, time := now })
    (hw : x.1.notificationSince.isSome = !notify) : Counts (log ++ [x]) x.1 := by
  have hb : ∀ n, s.waitsFor n = false := fun n => by simp [waitsFor, hno]
  have hen : ∀ n, ends n x = 0 := fun n => by simp [ends, reports, hev, Effects.of, Effects.none]
  have ha : ∀ n, x.1.waitsFor n = (decide (s.episode + 1 = n) && !notify) := fun n => by
    simp [waitsFor, hep, hw]
  have hnot : ∀ n, notifies n x = (decide (s.episode + 1 = n) && notify) := fun n => by
    cases notify <;> simp [notifies, hev, Effects.of]
  have hd : ∀ n, defers n x = (decide (s.episode + 1 = n) && !notify) := fun n => by
    cases notify <;> simp [defers, hev, Effects.of]
  refine hc.concat (by omega) (fun e he => ?_) (fun n => ?_) (fun n => ?_) (fun n => ?_)
  · rw [hev] at he
    cases he
    exact hep.symm
  · rw [ha, hnot]
    by_cases hn : s.episode + 1 = n
    · rw [(hc.future (by omega)).1]
      cases notify <;> simp [hn]
    · simpa [hn, hb n] using hc.single n
  · rw [hd, hb, hen, ha]
    simp
  · rw [hd]
    by_cases hn : s.episode + 1 = n
    · rw [(hc.future (by omega)).2]
      cases notify <;> simp [hn]
    · simpa [hn] using hc.once n

theorem ending {e : Option Event} (hc : Counts log s) (hepi : x.1.episode = s.episode)
    (hev : x.2.event = e) (hof : ∀ e', e = some e' → e'.episode = s.episode ∧ e'.kind ≠ .activate)
    (hnot : ∀ e', e = some e' → e'.kind = .notify → s.notificationSince.isSome = true)
    (hen : ∀ n, ends n x = (s.waitsFor n).toNat) (hno : x.1.notificationSince = none) : Counts (log ++ [x]) x.1 := by
  have ha : ∀ n, x.1.waitsFor n = false := fun n => by simp [waitsFor, hno]
  have hd : ∀ n, defers n x = false := fun n => by
    unfold defers
    rw [hev]
    cases he : e with
    | none => rfl
    | some e' => simp [(hof e' he).2]
  refine hc.concat hepi.ge (fun e' he' => ?_) (fun n => ?_) (fun n => ?_) (fun n => ?_)
  · rw [hepi]
    exact (hof e' (hev ▸ he')).1
  · -- a notification sent here is the one that waited
    have hle : (notifies n x).toNat ≤ (s.waitsFor n).toNat := by
      unfold notifies
      rw [hev]
      cases he : e with
      | none => simp
      | some e' =>
        obtain ⟨hep, hki⟩ := hof e' he
        have hs := hnot e' he
        rcases hk : e'.kind with _ | _ | _
        · exact absurd hk hki
        · simp [hk]
        · by_cases hn : s.episode = n <;> simp [waitsFor, hs hk, hep, hn]
          exact Bool.toNat_le _
    have := hc.single n
    rw [ha, Bool.toNat_false]
    omega
  · rw [hd, hen, ha]
    simp
  · rw [hd]
    exact hc.once n

theorem change (hc : Counts log s) (hr : ∀ since, s.notificationSince = some since → s.phase.isRaised = true)
    (h : Change p now s x) : Counts (log ++ [x]) x.1 := by
  have hno : s.phase.isRaised = false → s.notificationSince = none := fun hl => by
    cases hs : s.notificationSince with
    | none => rfl
    | some since => simp [hr since hs] at hl
  cases h with
  | quiet =>
    refine hc.concat le_rfl nofun hc.single (fun n => ?_) hc.once
    rw [show ends n _ = 0 by simp [ends, reports, Effects.none], Nat.zero_add]
    exact Nat.zero_add _
  | activate hl | defer hl => exact hc.activation (hno hl) rfl rfl rfl
  | resolve =>
    refine hc.ending rfl rfl (by rintro e ⟨⟩; exact ⟨rfl, nofun⟩) (by rintro e ⟨⟩ h; cases h) (fun n => ?_) rfl
    by_cases hn : s.episode = n <;>
      simp [ends, reports, Effects.of, Effects.none, event, waitsFor, resolved, hn]
  | notify hs =>
    refine hc.ending rfl rfl (by rintro e ⟨⟩; exact ⟨rfl, nofun⟩) (fun _ _ _ => by rw [hs]; rfl) (fun n => ?_) rfl
    by_cases hn : s.episode = n <;>
      simp [ends, reports, Effects.of, Effects.none, event, waitsFor, notified, hs, hn]
  | expire hs =>
    refine hc.ending rfl rfl nofun nofun (fun n => ?_) rfl
    by_cases hn : s.episode = n <;>
      simp [ends, reports, Effects.none, waitsFor, unnotified, hs, hn]

end Counts

/-! ### Whole runs -/

/-- What is known of a key between two transitions. -/
structure Books (p : Policy) (log : List (State × Effects)) (s : State) (now : ℤ) : Prop where
  lifecycle : Lifecycle log s
  notices : Notices p log s now
  counts : Counts log s
  raised : ∀ since, s.notificationSince = some since → s.phase.isRaised = true

namespace Books

theorem new (start : ℤ) (h : new start = .ok s) : Books p [] s start := by
  replace h := after_check h
  cases h
  refine ⟨⟨fun i e h => by simp [transitions, events] at h, rfl⟩, ?_, ?_, nofun⟩
  · exact ⟨fun e he => by simp [events] at he, fun e he => by simp [events] at he, .nil, nofun,
      fun e he => by simp [events] at he⟩
  · exact ⟨fun x hx => by simp at hx, fun n => by simp [waitsFor], fun n => by simp [waitsFor],
      fun _ => by simp⟩

theorem change (hb : Books p log s now) (h : Change p now s x) : Books p (log ++ [x]) x.1 now := by
  refine ⟨hb.lifecycle.change h, hb.notices.change h, hb.counts.change hb.raised h, fun since hs => ?_⟩
  cases h with
  | quiet hsi => exact hsi.trans (hb.raised since hs)
  | activate => cases hs
  | defer => rfl
  | resolve => cases hs
  | notify => cases hs
  | expire => cases hs

theorem changes {l : List (State × Effects)} (hb : Books p log s now) (h : Changes p now s l) :
    Books p (log ++ l) (after s l) now := by
  induction h generalizing log with
  | nil => simpa [after] using hb
  | @cons s x rest h _ ih =>
    rw [after_cons, ← singleton_append, ← append_assoc]
    exact ih (hb.change h)

end Books

def returned (log : List Round) : List (State × Effects) := log.flatMap Round.returned

def Round.sample (r : Round) : Option Sample :=
  match r.call with
  | .tick _ => none
  | .observe now enter clear => some ⟨now, enter, clear⟩

def samplesOf (log : List Round) : List Sample := log.filterMap Round.sample

/-- Why a round reports what it reports, `before` being the rounds before it: the alarm
activates if it is not raised and `enter` has held at every sample for long enough, and
resolves if it is raised and `clear` has. -/
structure Justified (p : Policy) (before : List Round) (r : Round) : Prop where
  activates : r.returned.any (reports .activate) = true ↔ raised (returned before) = false ∧
    HeldFor Sample.time Sample.enter (samplesOf (before ++ [r])) r.call.now p.activateMicros
  resolves : r.returned.any (reports .resolve) = true ↔ raised (returned before) = true ∧
    HeldFor Sample.time Sample.clear (samplesOf (before ++ [r])) r.call.now p.resolveMicros

variable {r : Round}

theorem Justified.of_sides {before : List Round}
    (h : ∀ side, r.returned.any (reports (.ending side)) = true ↔ raised (returned before) = side ∧
      HeldFor Sample.time (Sample.ends side) (samplesOf (before ++ [r])) r.call.now (p.hold side)) :
    Justified p before r :=
  ⟨h false, h true⟩

structure Known (p : Policy) (log : List Round) (s : State) (now : ℤ) : Prop where
  watch : Watch p (samplesOf log) s
  books : Books p (returned log) s now
  sorted : (samplesOf log).Pairwise fun a b => a.time ≤ b.time
  taken : ∀ a ∈ samplesOf log, a.time ≤ now
  justified : ∀ before r rest, log = before ++ r :: rest → Justified p before r

namespace Known

variable {rounds : List Round} {before : ℤ}

theorem later (hk : Known p rounds s before) (hle : before ≤ now) : Known p rounds s now :=
  { hk with
    books := { hk.books with notices := hk.books.notices.later hle }
    taken := fun a ha => (hk.taken a ha).trans hle }

theorem justified_concat (hk : Known p rounds s now) (hr : Justified p rounds r) :
    ∀ before r' rest, rounds ++ [r] = before ++ r' :: rest → Justified p before r' := by
  intro before r' rest h
  obtain ⟨rfl, rfl⟩ | ⟨rest, rfl⟩ := append_singleton_split h
  · exact hr
  · exact hk.justified before r' rest rfl

theorem returned_concat (rounds : List Round) (r : Round) :
    returned (rounds ++ [r]) = returned rounds ++ r.returned := by simp [returned]

theorem samplesOf_concat (rounds : List Round) (r : Round) :
    samplesOf (rounds ++ [r]) = samplesOf rounds ++ r.sample.toList := by
  cases h : r.sample <;> simp [samplesOf, h]

theorem tick (hk : Known p rounds s now) (h : Drained p now s drained) :
    Known p (rounds ++ [⟨.tick now, drained⟩]) (after s drained) now := by
  have hs : samplesOf (rounds ++ [⟨.tick now, drained⟩]) = samplesOf rounds := by
    simp [samplesOf_concat, Round.sample]
  have hr : Justified p rounds ⟨.tick now, drained⟩ := .of_sides fun side => by
    rw [hs, h.reports_iff hk.watch, hk.books.lifecycle.raised_eq, heldFor_iff hk.sorted]
    constructor
    · rintro ⟨hp, ht⟩
      have hsi : s.phase.isRaised = side := hp ▸ isRaised_waiting
      exact ⟨hsi, s.since, by rw [hk.watch.held hsi, if_pos hp], ht⟩
    · rintro ⟨hsi, since, hsin, ht⟩
      rw [hk.watch.held hsi] at hsin
      split_ifs at hsin with hp
      cases hsin
      exact ⟨hp, ht⟩
  refine ⟨?_, ?_, ?_, ?_, hk.justified_concat hr⟩
  · rw [hs]
    exact h.watch hk.watch
  · rw [returned_concat]
    exact hk.books.changes h.changes
  · rw [hs]
    exact hk.sorted
  · rw [hs]
    exact hk.taken

theorem waiting_of_quiet (hq : ∀ next, s.nextDeadline p = .ok next → isDue now next = false)
    (hn : s.nextDeadline p = .ok next) {deadline : ℤ} (hd : s.deadline = some deadline) : now < deadline := by
  have h := deadline_quiet hn (hq next hn)
  rw [hd] at h
  simpa [isDue] using h

theorem heldFor_sample {d : ℤ} (hso : (samples ++ [a]).Pairwise fun a b => a.time ≤ b.time)
    (hw : ∀ since, heldSince Sample.time f samples = some since → a.time < since + d) (hd : 0 ≤ d) :
    HeldFor Sample.time f (samples ++ [a]) a.time d ↔ heldSince Sample.time f samples = none ∧ f a = true ∧ d = 0 := by
  rw [heldFor_iff hso, heldSince_concat]
  cases hs : heldSince Sample.time f samples with
  | none =>
    by_cases ha : f a = true <;> simp [ha]
    omega
  | some since =>
    have := hw since hs
    by_cases ha : f a = true <;> simp [ha]
    omega

theorem observe (hk : Known p rounds s now) (hv : p.validate = .ok ())
    (hq : ∀ next, s.nextDeadline p = .ok next → isDue now next = false)
    (h : s.observe p now enter clear = .ok x) :
    Known p (rounds ++ [⟨.observe now enter clear, [x]⟩]) x.1 now := by
  have ho := observe_ok hk.watch h
  have hsa : samplesOf (rounds ++ [⟨.observe now enter clear, [x]⟩]) =
      samplesOf rounds ++ [⟨now, enter, clear⟩] := by simp [samplesOf_concat, Round.sample]
  have hso : (samplesOf rounds ++ [Sample.mk now enter clear]).Pairwise fun a b => a.time ≤ b.time :=
    pairwise_concat.mpr ⟨hk.sorted, hk.taken⟩
  have hv := refuseIf_eq_ok.mp hv
  have hh : ∀ side, 0 ≤ p.hold side := by rintro (_ | _) <;> simp only [Policy.hold] <;> omega
  obtain ⟨next, hne⟩ : ∃ next, s.nextDeadline p = .ok next := by
    replace h := after_check (after_check h)
    obtain ⟨next, hne, -⟩ := bind_eq_ok.mp h
    exact ⟨next, hne⟩
  have hr : Justified p rounds ⟨.observe now enter clear, [x]⟩ := .of_sides fun side => by
    rw [hsa, hk.books.lifecycle.raised_eq, any_cons, any_nil, Bool.or_false, ho.reports_iff]
    refine ⟨fun ⟨hp, hre⟩ => ?_, fun ⟨hs, hhe⟩ => ?_⟩
    · have hs : s.phase.isRaised = side := hp ▸ isRaised_resting
      have hn : heldSince Sample.time (Sample.ends side) (samplesOf rounds) = none := by
        rw [hk.watch.held hs, hp]
        cases side <;> rfl
      exact ⟨hs, (heldFor_sample hso (by simp [hn]) (hh side)).mpr ⟨hn, hre⟩⟩
    · have hw : ∀ since, heldSince Sample.time (Sample.ends side) (samplesOf rounds) = some since →
          now < since + p.hold side := fun since hsi => by
        rw [hk.watch.held hs] at hsi
        split_ifs at hsi with hp
        cases hsi
        exact waiting_of_quiet hq hne (hk.watch.deadline hp)
      obtain ⟨hn, hre⟩ := (heldFor_sample hso hw (hh side)).mp hhe
      refine ⟨?_, hre⟩
      rw [hk.watch.held hs] at hn
      cases side <;> cases hp : s.phase <;> simp_all [Phase.isRaised, Phase.waiting, Phase.resting]
  refine ⟨?_, ?_, ?_, ?_, hk.justified_concat hr⟩
  · rw [hsa]
    exact ho.watch
  · rw [returned_concat]
    exact hk.books.change ho.change
  · rw [hsa]
    exact hso
  · rw [hsa]
    exact forall_mem_concat.mpr ⟨hk.taken, le_rfl⟩

end Known

variable {rounds out : List Round} {before : ℤ}

theorem step_known {c : Call} (hv : p.validate = .ok ()) (hk : Known p rounds s before)
    (hle : before ≤ c.now) (h : step p s c = .ok (out, s')) : Known p (rounds ++ out) s' c.now := by
  have ha : 0 < p.notificationMaxAgeMicros := by
    have := refuseIf_eq_ok.mp hv
    omega
  cases c with
  | tick now =>
    obtain ⟨drained, hd, h⟩ := bind_eq_ok.mp h
    cases Except.ok.inj h
    exact (hk.later hle).tick (drain_quiet ha hk.watch hd).1
  | observe now enter clear =>
    obtain ⟨drained, hd, h⟩ := bind_eq_ok.mp h
    obtain ⟨x, hx, h⟩ := bind_eq_ok.mp h
    cases Except.ok.inj h
    obtain ⟨hdr, hq⟩ := drain_quiet ha hk.watch hd
    have hk' := (hk.later hle).tick hdr
    rw [← singleton_append, ← append_assoc]
    exact hk'.observe hv hq hx

variable {calls : List Call}

theorem runOk_known (hv : p.validate = .ok ()) (hk : Known p rounds s before)
    (hm : (before :: calls.map Call.now).Pairwise (· ≤ ·)) (h : Machine.runOk (step p) s calls = .ok (out, s')) :
    ∃ now, Known p (rounds ++ out) s' now := by
  induction calls generalizing rounds s out before with
  | nil =>
    obtain ⟨rfl, rfl⟩ : [] = out ∧ s = s' := by simpa [Machine.runOk] using h
    exact ⟨before, by simpa using hk⟩
  | cons c calls ih =>
    obtain ⟨seen, s₁, more, hc, hr, rfl⟩ := Machine.runOk_cons h
    rw [map_cons, pairwise_cons] at hm
    obtain ⟨now, hk'⟩ := ih (step_known hv hk (hm.1 c.now mem_cons_self) hc) hm.2 hr
    exact ⟨now, by rwa [append_assoc] at hk'⟩

theorem run_known {start : ℤ} (hv : p.validate = .ok ())
    (hm : (start :: calls.map Call.now).Pairwise (· ≤ ·)) (h : run p start calls = .ok (rounds, s)) :
    ∃ now, Known p rounds s now := by
  obtain ⟨s₀, hn, h⟩ := bind_eq_ok.mp h
  have hb := Books.new (p := p) start hn
  replace hn := after_check hn
  cases hn
  have hw : Watch p (samplesOf []) ⟨.normal, start, none, 0, 0, none⟩ :=
    ⟨⟨rfl, rfl⟩, nofun, fun a ha => by simp [samplesOf] at ha⟩
  have hk : Known p [] ⟨.normal, start, none, 0, 0, none⟩ start :=
    ⟨hw, hb, .nil, fun a ha => by simp [samplesOf] at ha, fun before r rest h => by simp at h⟩
  exact runOk_known hv hk hm h

/-- **The law of alarms.** In every run: activations and resolutions alternate, the `n`-th
pair being episode `n`; a round reports one exactly when its condition has held long enough;
an episode has one notification at most, no earlier than a cooldown after every notification
before it and, if it had to wait, before it is too old; and a notification that has to wait
ends once, unless it still waits. -/
theorem lifecycle_law {start : ℤ} {calls : List Call} (hvalid : p.validate = .ok ())
    (hmono : (start :: calls.map Call.now).Pairwise (· ≤ ·)) (hrun : run p start calls = .ok (rounds, s)) :
    (∀ i e, (transitions (returned rounds))[i]? = some e →
      e.kind = (if i % 2 = 0 then .activate else .resolve) ∧ e.episode = i / 2 + 1) ∧
    (∀ before r rest, rounds = before ++ r :: rest → Justified p before r) ∧
    (∀ n, (returned rounds).countP (notifies n) ≤ 1) ∧
    ((events (returned rounds)).Pairwise fun e e' =>
      e.notify = true → e'.notify = true → e'.kind ≠ .resolve → e.time + p.cooldownMicros ≤ e'.time) ∧
    (∀ e ∈ events (returned rounds), e.kind = .notify → ∃ a ∈ events (returned rounds),
      a.kind = .activate ∧ a.episode = e.episode ∧ e.time < a.time + p.notificationMaxAgeMicros) ∧
    ∀ n, (returned rounds).countP (defers n) ≤ 1 ∧
      (returned rounds).countP (defers n) = ((returned rounds).map (ends n)).sum + (s.waitsFor n).toNat := by
  obtain ⟨now, hk⟩ := run_known hvalid hmono hrun
  refine ⟨hk.books.lifecycle.alternates, hk.justified, fun n => ?_, hk.books.notices.spaced, hk.books.notices.aged,
    fun n => ⟨hk.books.counts.once n, hk.books.counts.balance n⟩⟩
  exact (Nat.le_add_right _ _).trans (hk.books.counts.single n)

/-- Conditions that have to hold for a while, and a cooldown longer than an episode. -/
def samplePolicy : Policy :=
  { activateMicros := 10, resolveMicros := 5, cooldownMicros := 100, notificationMaxAgeMicros := 50 }

/-- Two episodes: the second activates in the cooldown of the first's resolution. -/
def sampleCalls : List Call :=
  [.observe 0 true false, .tick 10, .observe 20 false true, .tick 25, .observe 30 true false, .tick 40, .tick 90]

theorem lifecycle_law_sample : ∃ rounds s, run samplePolicy 0 sampleCalls = .ok (rounds, s) ∧
      (events (returned rounds)).map (fun e => (e.kind, e.episode, e.notify, e.time)) =
        [(.activate, 1, true, 10), (.resolve, 1, true, 25), (.activate, 2, false, 40)] ∧
      ((returned rounds).map (ends 2)).sum = 1 ∧ ∀ n, (returned rounds).countP (notifies n) ≤ 1 := by
  have hr : run samplePolicy 0 sampleCalls = .ok (Result.value (run samplePolicy 0 sampleCalls) (by decide)) :=
    Result.eq_value _
  have hl := lifecycle_law (p := samplePolicy) rfl (by decide) hr
  exact ⟨_, _, hr, by decide, by decide, hl.2.2.1⟩

end Sparrow.Runtime.Alarm
