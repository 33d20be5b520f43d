import Mathlib.Data.List.Induction
import Mathlib.Order.Lattice

/-!
# Conditions that hold over time

Samples arrive in time order and each either meets a condition or not. `HeldFor` says that
the condition has been met by every sample for some time; `heldSince` is what a program
keeps of the samples to decide it, the time at which the unbroken run began.

## What is proved

* `heldSince_concat` — one sample more.
* `heldFor_iff` — the beginning of the run decides for how long the condition has held.
-/

namespace Sparrow.Library

open List

variable {α : Type*} (τ : α → ℤ) (f : α → Bool)

/-- Every sample from some time on meets the condition, and that time is at least `d` ago. -/
def HeldFor (l : List α) (now d : ℤ) : Prop :=
  ∃ before first rest, l = before ++ first :: rest ∧ (∀ a ∈ first :: rest, f a = true) ∧ τ first + d ≤ now

/-- When the run of samples that meet the condition began, if the last sample does. -/
def heldSince (l : List α) : Option ℤ := l.foldl (fun since a => if f a then some (since.getD (τ a)) else none) none

variable {τ f} {l : List α} {a : α} {now d since : ℤ}

@[simp] theorem heldSince_nil : heldSince τ f [] = none := rfl

theorem heldSince_concat : heldSince τ f (l ++ [a]) = if f a then some ((heldSince τ f l).getD (τ a)) else none := by
  simp [heldSince, foldl_append]

theorem heldFor_nil : ¬ HeldFor τ f [] now d := by
  rintro ⟨before, first, rest, h, -⟩
  simp at h

theorem heldFor_concat : HeldFor τ f (l ++ [a]) now d ↔ f a = true ∧ (HeldFor τ f l now d ∨ τ a + d ≤ now) := by
  constructor
  · rintro ⟨before, first, rest, h, hal, ht⟩
    -- the run is the new sample alone, or ends with it
    rcases eq_nil_or_concat rest with rfl | ⟨rest, b, rfl⟩
    · obtain ⟨rfl, ⟨⟩⟩ := append_inj' h rfl
      exact ⟨hal a mem_cons_self, .inr ht⟩
    · have h : l ++ [a] = (before ++ first :: rest) ++ [b] := by simpa using h
      obtain ⟨rfl, ⟨⟩⟩ := append_inj' h rfl
      refine ⟨hal a (by simp), .inl ⟨before, first, rest, rfl, fun c hc => hal c ?_, ht⟩⟩
      rw [concat_eq_append, ← cons_append]
      exact mem_append_left _ hc
  · rintro ⟨ha, ⟨before, first, rest, rfl, hal, ht⟩ | ht⟩
    · refine ⟨before, first, rest ++ [a], by simp, fun c hc => ?_, ht⟩
      rw [← cons_append, mem_append, mem_singleton] at hc
      rcases hc with hc | rfl
      · exact hal c hc
      · exact ha
    · exact ⟨l, a, [], rfl, by simpa using ha, ht⟩

theorem heldSince_le (hl : (l ++ [a]).Pairwise fun a b => τ a ≤ τ b) (h : heldSince τ f l = some since) :
    since ≤ τ a := by
  induction l using List.reverseRecOn generalizing since with
  | nil => cases h
  | append_singleton l b ih =>
    rw [heldSince_concat] at h
    have hb : τ b ≤ τ a := (List.pairwise_append.mp hl).2.2 b (by simp) a (by simp)
    split_ifs at h
    cases h
    cases hs : heldSince τ f l with
    | none => exact hb
    | some since =>
      refine ih (hl.sublist ?_) hs
      exact (sublist_append_left l [b]).append_right [a]

/-- **The beginning of the run decides for how long the condition has held.** -/
theorem heldFor_iff (hl : l.Pairwise fun a b => τ a ≤ τ b) :
    HeldFor τ f l now d ↔ ∃ since, heldSince τ f l = some since ∧ since + d ≤ now := by
  induction l using List.reverseRecOn with
  | nil => simp [heldFor_nil]
  | append_singleton l a ih =>
    rw [heldFor_concat, ih (hl.sublist (sublist_append_left l [a])), heldSince_concat]
    by_cases ha : f a = true
    · simp only [ha, true_and, if_true, Option.some.injEq, exists_eq_left']
      cases hs : heldSince τ f l with
      | none => simp
      | some since =>
        have := heldSince_le hl hs
        simp only [Option.some.injEq, exists_eq_left', Option.getD_some]
        omega
    · simp [ha]

end Sparrow.Library
