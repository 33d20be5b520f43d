import Mathlib.Data.List.Basic

/-!
# Machines and their runs

A machine takes inputs one at a time; each changes its state and adds to what has
been observed of it. `run` is a whole run, `Along` says that every input of a run
meets a condition at the state it finds.

## What is proved

* `run_append` — a run is cut at any point.
* `runOk_append`, `runOk_induction` — the same for machines that stop at the first error
  (`runOk`), over runs without errors.
-/

namespace Sparrow.Library

open List

theorem append_singleton_split {α : Type*} {xs pre post : List α} {x y : α} (h : xs ++ [x] = pre ++ y :: post) :
    (pre = xs ∧ y = x) ∨ ∃ post', xs = pre ++ y :: post' := by
  obtain rfl | ⟨post', z, rfl⟩ := eq_nil_or_concat post
  · obtain ⟨rfl, hx⟩ := append_inj' h rfl
    exact .inl ⟨rfl, (List.singleton_inj.mp hx).symm⟩
  · rw [concat_eq_append, ← cons_append, ← append_assoc] at h
    exact .inr ⟨post', (append_inj' h rfl).1⟩

theorem forall_mem_concat {α : Type*} {P : α → Prop} {xs : List α} {x : α} :
    (∀ y ∈ xs ++ [x], P y) ↔ (∀ y ∈ xs, P y) ∧ P x := by
  rw [forall_mem_append, forall_mem_singleton]

theorem pairwise_concat {α : Type*} {R : α → α → Prop} {xs : List α} {x : α} :
    (xs ++ [x]).Pairwise R ↔ xs.Pairwise R ∧ ∀ y ∈ xs, R y x := by
  simp [pairwise_append]

theorem map_eq_ok {ε α β : Type*} {x : Except ε α} {f : α → β} {b : β} :
    x.map f = .ok b ↔ ∃ a, x = .ok a ∧ f a = b := by
  cases x <;> simp [Except.map]

namespace Machine

variable {σ α β : Type*}

/-- Feed a list of inputs: what was observed, and the state reached. -/
def run (step : σ → α → List β × σ) (s : σ) : List α → List β × σ
  | [] => ([], s)
  | a :: rest =>
    let (seen, s') := step s a
    let (more, s'') := run step s' rest
    (seen ++ more, s'')

/-- Every input meets `G` at the state it finds. -/
def Along (step : σ → α → List β × σ) (G : σ → α → Prop) (s : σ) : List α → Prop
  | [] => True
  | a :: rest => G s a ∧ Along step G (step s a).2 rest

variable {step : σ → α → List β × σ} {G : σ → α → Prop}

instance decidableAlong [∀ s a, Decidable (G s a)] : ∀ (s : σ) (as : List α), Decidable (Along step G s as)
  | _, [] => .isTrue trivial
  | s, a :: rest =>
    have := decidableAlong (step s a).2 rest
    inferInstanceAs (Decidable (G s a ∧ Along step G (step s a).2 rest))

@[simp] theorem run_nil (s : σ) : run step s [] = ([], s) := rfl

@[simp] theorem run_cons (s : σ) (a : α) (rest : List α) :
    run step s (a :: rest) = ((step s a).1 ++ (run step (step s a).2 rest).1, (run step (step s a).2 rest).2) := rfl

theorem run_append (s : σ) (as bs : List α) : run step s (as ++ bs) =
      ((run step s as).1 ++ (run step (run step s as).2 bs).1, (run step (run step s as).2 bs).2) := by
  induction as generalizing s with
  | nil => simp
  | cons a rest ih => simp [ih, append_assoc]

variable {as : List α}

theorem along_of_forall {P : α → Prop} (h : ∀ a ∈ as, P a) (s : σ) : Along step (fun _ => P) s as := by
  induction as generalizing s with
  | nil => trivial
  | cons a rest ih => exact ⟨h a mem_cons_self, ih (fun b hb => h b (mem_cons_of_mem a hb)) _⟩

variable {seen : List β} {s : σ} {I : List β → σ → Prop}

/-- **Induction over a run.** `I` relates what has been observed to the state. -/
theorem run_induction
    (hs : ∀ seen s a, G s a → I seen s → I (seen ++ (step s a).1) (step s a).2) (hI : I seen s)
    (hG : Along step G s as) :
    I (seen ++ (run step s as).1) (run step s as).2 := by
  induction as generalizing seen s with
  | nil => simpa using hI
  | cons a rest ih =>
    obtain ⟨ha, hr⟩ := hG
    have := ih (hs seen s a ha hI) hr
    simpa [append_assoc] using this

variable {P : σ → Prop}

theorem run_invariant (hs : ∀ s a, P s → P (step s a).2)
    (hP : P s) (as : List α) : P (run step s as).2 := by
  induction as generalizing s with
  | nil => exact hP
  | cons a _ ih => exact ih (hs s a hP)

/-! ### Machines that fail -/

variable {ε : Type*}

/-- Feed a list of inputs to a machine that stops at its first error. -/
def runOk (step : σ → α → Except ε (List β × σ)) (s : σ) : List α → Except ε (List β × σ)
  | [] => .ok ([], s)
  | a :: rest =>
    match step s a with
    | .error e => .error e
    | .ok (seen, s') => (runOk step s' rest).map fun (more, s'') => (seen ++ more, s'')

variable {step : σ → α → Except ε (List β × σ)} {s'' : σ}

theorem runOk_cons {a : α} {rest : List α} (h : runOk step s (a :: rest) = .ok (seen, s'')) :
    ∃ out s' more, step s a = .ok (out, s') ∧ runOk step s' rest = .ok (more, s'') ∧ seen = out ++ more := by
  simp only [runOk] at h
  cases ha : step s a with
  | error e => simp [ha] at h
  | ok r =>
    obtain ⟨out, s'⟩ := r
    rw [ha] at h
    obtain ⟨⟨more, s₂⟩, hr, ⟨⟩⟩ := map_eq_ok.mp h
    exact ⟨out, s', more, rfl, hr, rfl⟩

theorem runOk_append {bs : List α} (h : runOk step s (as ++ bs) = .ok (seen, s'')) :
    ∃ out s' more, runOk step s as = .ok (out, s') ∧ runOk step s' bs = .ok (more, s'') ∧ seen = out ++ more := by
  induction as generalizing s seen with
  | nil => exact ⟨[], s, seen, rfl, h, rfl⟩
  | cons a rest ih =>
    obtain ⟨out, s', more, ha, hr, rfl⟩ := runOk_cons h
    obtain ⟨out', s₂, more', hr', hbs, rfl⟩ := ih hr
    refine ⟨out ++ out', s₂, more', ?_, hbs, by simp⟩
    simp [runOk, ha, hr', Except.map]

variable {s' : σ}

theorem runOk_snoc {a : α} {out : List β}
    (h : runOk step s as = .ok (seen, s')) (ha : step s' a = .ok (out, s'')) :
    runOk step s (as ++ [a]) = .ok (seen ++ out, s'') := by
  induction as generalizing s seen with
  | nil =>
    obtain ⟨rfl, rfl⟩ : [] = seen ∧ s = s' := by simpa [runOk] using h
    simp [runOk, ha, Except.map]
  | cons b rest ih =>
    obtain ⟨out', s₁, more, hb, hr, rfl⟩ := runOk_cons h
    simp [runOk, hb, ih hr, Except.map]

/-- **Induction over a run without errors.** -/
theorem runOk_induction {G : α → Prop}
    (hs : ∀ seen s a out s', G a → step s a = .ok (out, s') → I seen s → I (seen ++ out) s')
    {before : List β} (hG : ∀ a ∈ as, G a) (hI : I before s)
    (h : runOk step s as = .ok (seen, s')) : I (before ++ seen) s' := by
  induction as generalizing before seen s with
  | nil =>
    obtain ⟨rfl, rfl⟩ : [] = seen ∧ s = s' := by simpa [runOk] using h
    simpa using hI
  | cons a rest ih =>
    obtain ⟨out, s₁, more, ha, hr, rfl⟩ := runOk_cons h
    have hI' := hs before s a out s₁ (hG a mem_cons_self) ha hI
    have := ih (fun b hb => hG b (mem_cons_of_mem a hb)) hI' hr
    rwa [append_assoc] at this

theorem runOk_invariant {G : α → Prop}
    (hs : ∀ s a out s', G a → step s a = .ok (out, s') → P s → P s')
    (hG : ∀ a ∈ as, G a) (hP : P s) (h : runOk step s as = .ok (seen, s')) : P s' := by
  induction as generalizing seen s with
  | nil =>
    obtain ⟨-, rfl⟩ : [] = seen ∧ s = s' := by simpa [runOk] using h
    exact hP
  | cons a rest ih =>
    obtain ⟨out, s₁, more, ha, hr, -⟩ := runOk_cons h
    exact ih (fun b hb => hG b (mem_cons_of_mem _ hb)) (hs s a out s₁ (hG a mem_cons_self) ha hP) hr

end Machine

end Sparrow.Library
