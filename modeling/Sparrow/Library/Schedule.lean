import Sparrow.Library.Emits

/-!
# Tasks that read from several ports

A task reads messages from ports, each of them a queue. It may refuse to read some of
the ports for a while (`ready`); which of the others is read next is up to a schedule.

## What is proved

* `PortTask.Commutes.consume_agrees` — if reads of two ports can be exchanged, schedules agree.
* `PortTask.Gathers.commutes` — the exchange, for a task that gathers messages one by one and
  does something only once no port is ready any more.

The proof of the first is by induction on one of the schedules: in the other one, the
port that it reads first can be brought to the front (`Commutes.exists_front`).
-/

namespace Sparrow.Library

open Emits

namespace Emits

variable {β ε α γ δ : Type} {x y z : Emits β ε α}

/-- The same emissions, and the same value unless both fail. -/
def Agrees (x y : Emits β ε α) : Prop := x.sent = y.sent ∧ ∀ a, x.result = .ok a ↔ y.result = .ok a

/-- It fails without having emitted anything. -/
def Refuses (x : Emits β ε α) : Prop := x.sent = [] ∧ ∀ a, x.result ≠ .ok a

theorem Agrees.refl (x : Emits β ε α) : x.Agrees x := ⟨rfl, fun _ => Iff.rfl⟩

theorem Agrees.symm (h : x.Agrees y) : y.Agrees x := ⟨h.1.symm, fun a => (h.2 a).symm⟩

theorem Agrees.trans (h : x.Agrees y) (h' : y.Agrees z) : x.Agrees z :=
  ⟨h.1.trans h'.1, fun a => (h.2 a).trans (h'.2 a)⟩

theorem Refuses.agrees (hx : x.Refuses) (hy : y.Refuses) : x.Agrees y :=
  ⟨hx.1.trans hy.1.symm, fun a => iff_of_false (hx.2 a) (hy.2 a)⟩

theorem Refuses.bind (hx : x.Refuses) (f : α → Emits β ε γ) : (x >>= f).Refuses := by
  cases h : x.result with
  | error e =>
    rw [bind_error h]
    exact ⟨hx.1, nofun⟩
  | ok a => exact absurd h (hx.2 a)

theorem refuses_error (e : ε) : (lift (.error e) : Emits β ε α).Refuses := ⟨rfl, nofun⟩

variable {f : α → Emits β ε γ} {r : Except ε α}

theorem refuses_lift_bind (h : ∀ a, r = .ok a → (f a).Refuses) : (lift r >>= f).Refuses := by
  cases r with
  | error e => exact (refuses_error e).bind f
  | ok a => exact h a rfl

theorem refuses_of_error {e : ε} (hs : x.sent = []) (h : x.result = .error e) : x.Refuses :=
  ⟨hs, fun a ha => by rw [h] at ha; cases ha⟩

theorem pure_bind (a : α) (f : α → Emits β ε γ) : (Pure.pure a : Emits β ε α) >>= f = f a := rfl

theorem bind_assoc (x : Emits β ε α) (f : α → Emits β ε γ) (g : γ → Emits β ε δ) :
    x >>= f >>= g = x >>= fun a => f a >>= g := by
  cases h : x.result with
  | error e => rw [bind_error h, bind_error h, bind_error rfl]
  | ok a =>
    rw [bind_ok h, bind_ok h]
    cases h' : (f a).result with
    | error e => rw [bind_error h', bind_error rfl]
    | ok c =>
      rw [bind_ok h', bind_ok rfl]
      simp only [List.append_assoc]

/-- `x` is `y` if `P` holds, and refuses otherwise. -/
def Guards (x : Emits β ε α) (P : Prop) (y : Emits β ε α) : Prop := (P → x = y) ∧ (¬ P → x.Refuses)

namespace Guards

variable {P Q : Prop}

theorem of_eq (hP : P) (h : x = y) : x.Guards P y := ⟨fun _ => h, fun hn => absurd hP hn⟩

theorem of_refuses (hP : ¬ P) (hx : x.Refuses) : x.Guards P y := ⟨fun h => absurd h hP, fun _ => hx⟩

theorem lift_bind {a : α} (h : ∀ b, r = .ok b ↔ P ∧ b = a) (f : α → Emits β ε γ) : (lift r >>= f).Guards P (f a) := by
  refine ⟨fun hP => ?_, fun hP => ?_⟩
  · rw [(h a).mpr ⟨hP, rfl⟩]
    rfl
  · exact refuses_lift_bind fun b hb => absurd ((h b).mp hb).1 hP

theorem bind (h : x.Guards P y) (f : α → Emits β ε γ) : (x >>= f).Guards P (y >>= f) :=
  ⟨fun hP => by rw [h.1 hP], fun hP => (h.2 hP).bind f⟩

theorem and (h : x.Guards P y) (h' : P → y.Guards Q z) : x.Guards (P ∧ Q) z := by
  refine ⟨fun hPQ => (h.1 hPQ.1).trans ((h' hPQ.1).1 hPQ.2), fun hPQ => ?_⟩
  by_cases hP : P
  · rw [h.1 hP]
    exact (h' hP).2 fun hQ => hPQ ⟨hP, hQ⟩
  · exact h.2 hP

end Guards

theorem Agrees.bind (h : x.Agrees y) (f : α → Emits β ε γ) : (x >>= f).Agrees (y >>= f) := by
  cases hx : x.result with
  | ok a =>
    rw [bind_ok hx, bind_ok ((h.2 a).mp hx), h.1]
    exact .refl _
  | error e =>
    cases hy : y.result with
    | ok a => exact absurd ((h.2 a).mpr hy) (by simp [hx])
    | error e' =>
      rw [bind_error hx, bind_error hy]
      exact ⟨h.1, fun c => iff_of_false nofun nofun⟩

theorem agrees_bind {g : α → Emits β ε γ} (h : ∀ a, x.result = .ok a → (f a).Agrees (g a)) :
    (x >>= f).Agrees (x >>= g) := by
  cases hx : x.result with
  | error e =>
    rw [bind_error hx, bind_error hx]
    exact .refl _
  | ok a =>
    obtain ⟨hs, hr⟩ := h a hx
    rw [bind_ok hx, bind_ok hx]
    exact ⟨congrArg (x.sent ++ ·) hs, hr⟩

end Emits

/-- A task that reads from ports `ι`. -/
structure PortTask (ι σ μ β ε : Type) where
  ready : σ → ι → Bool
  receive : σ → ι → μ → Emits β ε σ

namespace PortTask

variable {ι σ μ β ε : Type} [DecidableEq ι]

/-- A state, and what the ports have not delivered yet. -/
structure Config (ι σ μ : Type) where
  state : σ
  queues : ι → List μ

variable (T : PortTask ι σ μ β ε) (c : Config ι σ μ)

/-- Read a port, if it is ready and has a message. -/
def read (p : ι) : Emits β ε (Config ι σ μ) :=
  match c.queues p with
  | [] => pure c
  | m :: rest =>
    if T.ready c.state p then T.receive c.state p m >>= fun s => pure ⟨s, Function.update c.queues p rest⟩
    else pure c

def consume (schedule : List ι) : Emits β ε (Config ι σ μ) := foldM T.read c schedule

def Finished : Prop := ∀ p, c.queues p = [] ∨ T.ready c.state p = false

/-- The schedule goes on until the task fails or nothing can be read any more. -/
def Consumes (schedule : List ι) : Prop :=
  ∀ c', (T.consume c schedule).result = .ok c' → T.Finished c'

/-- Messages of two ports that are both ready can be exchanged. -/
structure Commutes : Prop where
  silent : ∀ {s p q m}, p ≠ q → T.ready s p = true → T.ready s q = true → (T.receive s p m).sent = []
  stays : ∀ {s s' p q m}, p ≠ q → T.ready s p = true → T.ready s q = true → (T.receive s p m).result = .ok s' →
    T.ready s' q = true
  swap : ∀ {s p q m m'}, p ≠ q → T.ready s p = true → T.ready s q = true →
    (T.receive s p m >>= fun s' => T.receive s' q m').Agrees (T.receive s q m' >>= fun s' => T.receive s' p m)

variable {T} {c c' : Config ι σ μ} {p q : ι} {m : μ} {rest : List μ}

theorem consume_cons (p : ι) (schedule : List ι) :
    T.consume c (p :: schedule) = T.read c p >>= fun c' => T.consume c' schedule := rfl

theorem consume_cons_cons (p q : ι) (schedule : List ι) : T.consume c (p :: q :: schedule) =
      T.read c p >>= (fun c' => T.read c' q) >>= fun c'' => T.consume c'' schedule := (bind_assoc _ _ _).symm

theorem read_of_not (h : c.queues p = [] ∨ T.ready c.state p = false) : T.read c p = pure c := by
  unfold read
  obtain h | h := h
  · rw [h]
  · rw [h]
    cases c.queues p <;> rfl

theorem read_of_ready (hm : c.queues p = m :: rest) (hp : T.ready c.state p = true) :
    T.read c p = T.receive c.state p m >>= fun s => pure ⟨s, Function.update c.queues p rest⟩ := by
  unfold read
  rw [hm]
  exact if_pos hp

omit [DecidableEq ι] in
theorem read_cases (c : Config ι σ μ) (p : ι) :
    (c.queues p = [] ∨ T.ready c.state p = false) ∨ ∃ m rest, c.queues p = m :: rest ∧ T.ready c.state p = true := by
  cases hq : c.queues p with
  | nil => exact .inl (.inl rfl)
  | cons m rest =>
    cases hr : T.ready c.state p with
    | false => exact .inl (.inr rfl)
    | true => exact .inr ⟨m, rest, rfl, rfl⟩

theorem Finished.consume (h : T.Finished c) (schedule : List ι) : T.consume c schedule = pure c := by
  induction schedule with
  | nil => rfl
  | cons p rest ih => rw [consume_cons, read_of_not (h p), pure_bind, ih]

variable {schedule : List ι}

theorem Finished.consumes (h : T.Finished c') (hc : (T.consume c schedule).result = .ok c') :
    T.Consumes c schedule := fun _ hc'' => Except.ok.inj (hc.symm.trans hc'') ▸ h

theorem Consumes.tail (h : T.Consumes c (p :: schedule)) (hc : (T.read c p).result = .ok c') :
    T.Consumes c' schedule := fun c'' h'' => h c'' (by rw [consume_cons, bind_ok hc]; exact h'')

variable {σ₁ σ₂ : List ι}

theorem Consumes.congr (h : T.Consumes c σ₁) (ha : (T.consume c σ₂).Agrees (T.consume c σ₁)) :
    T.Consumes c σ₂ := fun c' h' => h c' ((ha.2 c').mp h')

namespace Commutes

variable (hT : T.Commutes)
include hT

section

variable {m' : μ} {rest' : List μ} (hpq : p ≠ q) (hm : c.queues p = m :: rest) (hp : T.ready c.state p = true)
  (hm' : c.queues q = m' :: rest') (hq : T.ready c.state q = true)

include hpq hm hp hm' hq

theorem read_read : (T.read c p >>= fun c' => T.read c' q).Agrees
      (T.receive c.state p m >>= (fun s => T.receive s q m') >>= fun s' =>
        pure ⟨s', Function.update (Function.update c.queues p rest) q rest'⟩) := by
  rw [read_of_ready hm hp, bind_assoc, bind_assoc]
  refine agrees_bind fun s hs => ?_
  have hqu : Function.update c.queues p rest q = m' :: rest' := by rw [Function.update_of_ne hpq.symm, hm']
  rw [pure_bind, read_of_ready hqu (hT.stays hpq hp hq hs)]
  exact .refl _

theorem read_comm : (T.read c p >>= fun c' => T.read c' q).Agrees (T.read c q >>= fun c' => T.read c' p) := by
  have hqp := (hT.read_read hpq.symm hm' hq hm hp).symm
  rw [Function.update_comm hpq.symm] at hqp
  exact (hT.read_read hpq hm hp hm' hq).trans (((hT.swap hpq hp hq).bind _).trans hqp)

end

theorem read_silent (hpq : p ≠ q) (hm : c.queues p = m :: rest) (hp : T.ready c.state p = true)
    (hq : T.ready c.state q = true) : (T.read c p).sent = [] := by
  have hs := hT.silent hpq hp hq (m := m)
  rw [read_of_ready hm hp]
  cases h : (T.receive c.state p m).result with
  | error e => rw [bind_error h, hs]
  | ok s =>
    rw [bind_ok h, hs]
    rfl

/-- **Any port can be brought to the front** of a schedule that consumes the queues. -/
theorem exists_front (h : T.Consumes c schedule) (p : ι) :
    ∃ schedule', (T.consume c (p :: schedule')).Agrees (T.consume c schedule) := by
  -- the ports before the first reading of `p` are exchanged with it one by one
  induction schedule generalizing c with
  | nil =>
    have hf : T.Finished c := h c rfl
    exact ⟨[], by rw [hf.consume]; exact .refl _⟩
  | cons q schedule ih =>
    obtain hp | ⟨m, rest, hm, hp⟩ := read_cases (T := T) c p
    · refine ⟨q :: schedule, ?_⟩
      rw [consume_cons, read_of_not hp, pure_bind]
      exact .refl _
    obtain rfl | hqp := eq_or_ne q p
    · exact ⟨schedule, .refl _⟩
    obtain hq | ⟨m', rest', hm', hq⟩ := read_cases (T := T) c q
    · have hr : (T.read c q).result = .ok c := by rw [read_of_not hq]; rfl
      obtain ⟨schedule', h'⟩ := ih (h.tail hr)
      refine ⟨schedule', ?_⟩
      rw [consume_cons q, read_of_not hq, pure_bind]
      exact h'
    have hc := (hT.read_comm hqp hm' hq hm hp).symm
    cases hr : (T.read c q).result with
    | error e =>
      have hre : (T.read c q).Refuses := refuses_of_error (hT.read_silent hqp hm' hq hp) hr
      refine ⟨[q], ?_⟩
      rw [consume_cons_cons]
      exact (hc.bind _).trans (((hre.bind _).bind _).agrees (hre.bind _))
    | ok c' =>
      obtain ⟨schedule', h'⟩ := ih (h.tail hr)
      refine ⟨q :: schedule', ?_⟩
      rw [consume_cons_cons]
      refine (hc.bind _).trans ?_
      rw [← consume_cons_cons, consume_cons, consume_cons q]
      refine agrees_bind fun c'' hc'' => ?_
      cases hr.symm.trans hc''
      exact h'

/-- **The schedule does not matter.** -/
theorem consume_agrees (h₁ : T.Consumes c σ₁) (h₂ : T.Consumes c σ₂) : (T.consume c σ₁).Agrees (T.consume c σ₂) := by
  induction σ₁ generalizing c σ₂ with
  | nil =>
    have hf : T.Finished c := h₁ c rfl
    rw [hf.consume, hf.consume]
    exact .refl _
  | cons p σ₁ ih =>
    obtain ⟨σ₂', hfr⟩ := hT.exists_front h₂ p
    refine .trans ?_ hfr
    exact agrees_bind fun c' hc' => ih (h₁.tail hc') ((h₂.congr hfr).tail hc')

end Commutes

/-! ### Gathering -/

/-- The task gathers messages one by one (`collect`), refusing some of them, and does something
(`settle`) only when no port is ready any more. -/
structure Gathers (T : PortTask ι σ μ β ε) (collect : σ → ι → μ → Option σ) (settle : σ → Emits β ε σ) : Prop where
  refuses : ∀ {s p m}, T.ready s p = true → collect s p m = none → (T.receive s p m).Refuses
  settles : ∀ {s s' p m}, T.ready s p = true → collect s p m = some s' → T.receive s p m = settle s'
  waits : ∀ {s p}, T.ready s p = true → settle s = pure s
  stays : ∀ {s s' p q m}, p ≠ q → T.ready s p = true → T.ready s q = true → collect s p m = some s' →
    T.ready s' q = true
  comm : ∀ {s p q m m'}, p ≠ q → T.ready s p = true → T.ready s q = true →
    (collect s p m).bind (fun s' => collect s' q m') = (collect s q m').bind fun s' => collect s' p m

namespace Gathers

variable {collect : σ → ι → μ → Option σ} {settle : σ → Emits β ε σ} {s s' : σ}
  (hT : T.Gathers collect settle)
include hT

omit [DecidableEq ι] in
theorem receive_eq (hpq : p ≠ q) (hp : T.ready s p = true) (hq : T.ready s q = true) (hs : collect s p m = some s') :
    T.receive s p m = pure s' := by
  rw [hT.settles hp hs, hT.waits (hT.stays hpq hp hq hs)]

omit [DecidableEq ι] in
theorem receive_receive (m m' : μ) (hpq : p ≠ q) (hp : T.ready s p = true) (hq : T.ready s q = true) :
    match (collect s p m).bind fun s' => collect s' q m' with
    | none => (T.receive s p m >>= fun s' => T.receive s' q m').Refuses
    | some s'' => (T.receive s p m >>= fun s' => T.receive s' q m') = settle s'' := by
  cases hs : collect s p m with
  | none => exact (hT.refuses hp hs).bind _
  | some s' =>
    have hq' := hT.stays hpq hp hq hs
    rw [Option.bind_some, hT.receive_eq hpq hp hq hs, pure_bind]
    cases hs' : collect s' q m' with
    | none => exact hT.refuses hq' hs'
    | some s'' => exact hT.settles hq' hs'

omit [DecidableEq ι] in
theorem commutes : T.Commutes where
  silent {s p q m} hpq hp hq := by
    cases hs : collect s p m with
    | none => exact (hT.refuses hp hs).1
    | some s' => rw [hT.receive_eq hpq hp hq hs]; rfl
  stays {s s' p q m} hpq hp hq h := by
    cases hs : collect s p m with
    | none => exact absurd h ((hT.refuses hp hs).2 _)
    | some s'' =>
      rw [hT.receive_eq hpq hp hq hs] at h
      cases h
      exact hT.stays hpq hp hq hs
  swap {s p q m m'} hpq hp hq := by
    have hf := hT.receive_receive m m' hpq hp hq
    have hse := hT.receive_receive m' m hpq.symm hq hp
    rw [← hT.comm hpq hp hq] at hse
    revert hf hse
    cases (collect s p m).bind fun s' => collect s' q m' with
    | none => exact fun hf hse => hf.agrees hse
    | some s'' =>
      intro hf hse
      rw [hf, hse]
      exact .refl _

end Gathers

end PortTask

end Sparrow.Library
