import Mathlib.Data.List.Basic

/-!
# Errors

`sparrow-model/src/error.rs`: every fallible call of the runtime returns
`Result<T> = Result<T, SparrowError>`, an error being a stable code with a
message and key/value context. `SparrowError.new` takes the default retry hint of
its code.
-/

namespace Sparrow.Model

/-- Stable machine-readable error class. -/
inductive ErrorCode where
  | invalidArgument
  | invalidSchema
  | typeMismatch
  | boundExceeded
  | resourceExhausted
  | featureUnavailable
  | unsupportedRestore
  | unsupportedDelivery
  | codecViolation
  | maxRecordSize
  | jobFailed
  | cancelled
  | policyDenied
  | secretMissing
  /-- Checked integer overflow in incremental SUM/COUNT (never wrap, never silent). -/
  | integerOverflow
  | internal
  deriving DecidableEq, Repr

def ErrorCode.defaultRetryable : ErrorCode → Bool
  | .resourceExhausted => true
  | _ => false

/-- `as_str`. -/
def ErrorCode.asStr : ErrorCode → String
  | .invalidArgument => "invalid_argument"
  | .invalidSchema => "invalid_schema"
  | .typeMismatch => "type_mismatch"
  | .boundExceeded => "bound_exceeded"
  | .resourceExhausted => "resource_exhausted"
  | .featureUnavailable => "feature_unavailable"
  | .unsupportedRestore => "unsupported_restore"
  | .unsupportedDelivery => "unsupported_delivery"
  | .codecViolation => "codec_violation"
  | .maxRecordSize => "max_record_size"
  | .jobFailed => "job_failed"
  | .cancelled => "cancelled"
  | .policyDenied => "policy_denied"
  | .secretMissing => "secret_missing"
  | .integerOverflow => "integer_overflow"
  | .internal => "internal"

structure SparrowError where
  code : ErrorCode
  message : String
  retryable : Bool
  context : List (String × String)
  deriving DecidableEq, Repr

/-- An error without context, retryable as its code says. -/
def SparrowError.new (code : ErrorCode) (message : String) : SparrowError :=
  { code, message, retryable := code.defaultRetryable, context := [] }

def SparrowError.withContext (e : SparrowError) (key value : String) : SparrowError :=
  { e with context := e.context ++ [(key, value)] }

abbrev Result (α : Type) := Except SparrowError α

/-- Fail with `e` when `p` holds. -/
def refuseIf (p : Prop) [Decidable p] (e : SparrowError) : Result Unit :=
  if p then .error e else .ok ()

def Result.value {α : Type} (r : Result α) (h : r.toOption.isSome = true) : α := r.toOption.get h

variable {α : Type}

theorem Result.eq_value {r : Result α} (h : r.toOption.isSome = true) : r = .ok (r.value h) := by
  cases r with
  | ok a => rfl
  | error e => simp [Except.toOption] at h

/-! ### Peeling a computation apart -/

variable {β : Type}

theorem bind_eq_ok {x : Result α} {f : α → Result β} {b : β} : (x >>= f) = .ok b ↔ ∃ a, x = .ok a ∧ f a = .ok b := by
  cases x with
  | error e => simp [bind, Except.bind]
  | ok a => simp [bind, Except.bind]

variable {e : SparrowError}

theorem Result.bind_eq_error {x : Result α} {f : α → Result β} :
    (x >>= f) = .error e ↔ x = .error e ∨ ∃ a, x = .ok a ∧ f a = .error e := by
  cases x with
  | error e => simp [bind, Except.bind]
  | ok a => simp [bind, Except.bind]

theorem refuseIf_eq_ok {p : Prop} [Decidable p] {u : Unit} : refuseIf p e = .ok u ↔ ¬ p := by
  unfold refuseIf
  split_ifs with h <;> simp [h]

variable {f : Unit → Result α}

theorem guard_eq_ok {p : Prop} [Decidable p] {a : α} : (refuseIf p e >>= f) = .ok a ↔ ¬ p ∧ f () = .ok a := by
  rw [bind_eq_ok, Unique.exists_iff, refuseIf_eq_ok]

theorem after_check {x : Result Unit} {a : α} (h : (x >>= f) = .ok a) : f () = .ok a := by
  obtain ⟨_, -, h⟩ := bind_eq_ok.mp h
  exact h

/-- What a call ensures of its value, if it succeeds. -/
def Result.Ensures {α : Type} (r : Result α) (P : α → Prop) : Prop := ∀ ⦃a⦄, r = .ok a → P a

section Ensures

variable {α β : Type} {P : β → Prop}

theorem Result.Ensures.ok {b : β} (h : P b) : Ensures (.ok b) P := by
  rintro _ ⟨⟩
  exact h

theorem Result.Ensures.error : Ensures (.error e) P := nofun

theorem Result.Ensures.bind {x : Result α} {f : α → Result β} (h : ∀ a, x = .ok a → (f a).Ensures P) :
    Ensures (x >>= f) P := by
  intro b hb
  obtain ⟨a, hx, hf⟩ := bind_eq_ok.mp hb
  exact h a hx hf

end Ensures

variable {l : List α}

theorem Result.forM_eq_ok {f : α → Result Unit} : l.forM f = .ok () ↔ ∀ a ∈ l, f a = .ok () := by
  induction l with
  | nil => simp [pure, Except.pure]
  | cons a rest ih =>
    rw [List.forall_mem_cons, ← ih]
    exact bind_eq_ok.trans ⟨fun ⟨_, ha, hr⟩ => ⟨ha, hr⟩, fun ⟨ha, hr⟩ => ⟨(), ha, hr⟩⟩

theorem Result.mapM_ok {f : α → Result β} {g : α → β} (h : ∀ a ∈ l, f a = .ok (g a)) : l.mapM f = .ok (l.map g) := by
  induction l with
  | nil => rfl
  | cons a rest ih =>
    obtain ⟨ha, hr⟩ := List.forall_mem_cons.mp h
    rw [List.mapM_cons, ha, ih hr]
    rfl

theorem Result.forall₂_of_mapM {f : α → Result β} :
    ∀ {l : List α}, (l.mapM f).Ensures (List.Forall₂ (fun a b => f a = .ok b) l)
  | [] => .ok .nil
  | a :: rest => by
    rw [List.mapM_cons]
    exact .bind fun b hb => .bind fun bs hbs => .ok (.cons hb (Result.forall₂_of_mapM hbs))

theorem Result.foldlM_invariant {σ : Type} {f : σ → α → Result σ} {P : σ → Prop}
    (hf : ∀ s a s', P s → f s a = .ok s' → P s') {s s' : σ} (hs : P s)
    (h : l.foldlM f s = .ok s') : P s' := by
  induction l generalizing s with
  | nil => exact Except.ok.inj h ▸ hs
  | cons a rest ih =>
    obtain ⟨s₁, ha, h⟩ := bind_eq_ok.mp h
    exact ih (hf s a s₁ hs ha) h

end Sparrow.Model
