import Mathlib.Data.List.Basic

/-!
# Computations that emit as they go and may fail

What has been emitted stays emitted when a later step fails. `Emits β ε α` keeps the
emissions of a computation next to its result, and `Ensures` is the triple for it: `P`
holds of the log however the computation ends, `Q` of the log and the value when it
succeeds.

## What is proved

* `Ensures.bind`, `Ensures.lift_bind`, `Ensures.emit_bind` — the rules of the triple.
-/

namespace Sparrow.Library

/-- A computation: what it emitted, and how it ended. -/
structure Emits (β ε α : Type) where
  sent : List β
  result : Except ε α

namespace Emits

variable {β ε α γ : Type}

def lift (r : Except ε α) : Emits β ε α := ⟨[], r⟩

def emit (b : β) : Emits β ε Unit := ⟨[b], .ok ()⟩

/-- Run on from the value, after the emissions so far. -/
def andThen (x : Emits β ε α) (f : α → Emits β ε γ) : Emits β ε γ :=
  match x.result with
  | .error e => ⟨x.sent, .error e⟩
  | .ok a => ⟨x.sent ++ (f a).sent, (f a).result⟩

instance : Monad (Emits β ε) where
  pure a := ⟨[], .ok a⟩
  bind := andThen

section

variable {x : Emits β ε α} {f : α → Emits β ε γ}

theorem bind_ok {a : α} (h : x.result = .ok a) : x >>= f = ⟨x.sent ++ (f a).sent, (f a).result⟩ := by
  simp only [bind, andThen, h]

theorem bind_error {e : ε} (h : x.result = .error e) : x >>= f = ⟨x.sent, .error e⟩ := by
  simp only [bind, andThen, h]

theorem bind_result_eq_ok {c : γ} : (x >>= f).result = .ok c ↔ ∃ a, x.result = .ok a ∧ (f a).result = .ok c := by
  cases h : x.result with
  | error e => simp [bind_error h]
  | ok a => simp [bind_ok h]

end

@[simp] theorem lift_sent (r : Except ε α) : (lift r : Emits β ε α).sent = [] := rfl

@[simp] theorem lift_result (r : Except ε α) : (lift r : Emits β ε α).result = r := rfl

/-! ### The triple -/

/-- After `log`: `P` of the log in any case, `Q` of the log and the value on success. -/
def Ensures (log : List β) (x : Emits β ε α) (P : List β → Prop) (Q : List β → α → Prop) : Prop :=
  P (log ++ x.sent) ∧ ∀ a, x.result = .ok a → Q (log ++ x.sent) a

variable {log : List β} {P : List β → Prop} {Q : List β → α → Prop} {R : List β → γ → Prop}

theorem Ensures.pure {a : α} (hP : P log) (hQ : Q log a) : Ensures log (Pure.pure a : Emits β ε α) P Q := by
  refine ⟨by simpa [Pure.pure] using hP, ?_⟩
  rintro a' ⟨⟩
  simpa [Pure.pure] using hQ

theorem Ensures.error {e : ε} (hP : P log) : Ensures log (lift (.error e) : Emits β ε α) P Q :=
  ⟨by simpa using hP, fun _ h => by cases h⟩

variable {f : α → Emits β ε γ}

/-- **Sequencing.** -/
theorem Ensures.bind {x : Emits β ε α} (hx : Ensures log x P Q)
    (hf : ∀ log' a, Q log' a → Ensures log' (f a) P R) : Ensures log (x >>= f) P R := by
  obtain ⟨hP, hQ⟩ := hx
  cases h : x.result with
  | error e =>
    rw [bind_error h]
    exact ⟨hP, fun _ h => by cases h⟩
  | ok a =>
    rw [bind_ok h]
    obtain ⟨hP', hR⟩ := hf _ a (hQ a h)
    refine ⟨by simpa [List.append_assoc] using hP', fun c hc => ?_⟩
    simpa [List.append_assoc] using hR c hc

theorem Ensures.lift_bind {r : Except ε α} (hP : P log)
    (hf : ∀ a, r = .ok a → Ensures log (f a) P R) : Ensures log (lift r >>= f) P R := by
  cases r with
  | error e => exact ⟨by simpa [bind_error] using hP, fun _ h => by cases h⟩
  | ok a =>
    exact hf a rfl

theorem Ensures.emit_bind {b : β} {f : Unit → Emits β ε γ} (hf : Ensures (log ++ [b]) (f ()) P R) :
    Ensures log (emit b >>= f) P R := by
  obtain ⟨hP, hR⟩ := hf
  rw [List.append_assoc] at hP hR
  exact ⟨hP, hR⟩

/-! ### Over a list -/

variable {σ δ : Type}

def foldM (f : σ → δ → Emits β ε σ) (s : σ) : List δ → Emits β ε σ
  | [] => Pure.pure s
  | d :: rest => f s d >>= fun s' => foldM f s' rest

/-- **Induction over a list.** -/
theorem Ensures.foldM {f : σ → δ → Emits β ε σ} {G : δ → Prop} {I : List β → σ → Prop}
    (hP : ∀ log s, I log s → P log) (hs : ∀ log s d, G d → I log s → Ensures log (f s d) P I) {l : List δ}
    (hG : ∀ d ∈ l, G d) {s : σ} (hI : I log s) : Ensures log (Emits.foldM f s l) P I := by
  induction l generalizing log s with
  | nil => exact .pure (hP _ _ hI) hI
  | cons d rest ih =>
    obtain ⟨hd, hr⟩ := List.forall_mem_cons.mp hG
    exact (hs _ _ _ hd hI).bind fun log' s' hI' => ih hr hI'

end Emits

end Sparrow.Library
