import Mathlib.Data.List.Perm.Basic

/-!
# The nested-loop join

What a join of two finite collections is: every pair that matches, and, for an outer
join, every left element that matches nothing. An operator that sees the elements one at
a time is compared with it up to order.

## What is proved

* `pairs_concat_left`, `pairs_concat_right` — what one more element adds.
* `filter_split` — a selection that grows by some elements.
-/

namespace Sparrow.Library.NestedLoop

open List

variable {α β γ : Type*} {m : α → β → Bool} {row : α → β → γ}

def pairs (m : α → β → Bool) (row : α → β → γ) (ls : List α) (rs : List β) : List γ :=
  ls.flatMap fun l => (rs.filter (m l)).map (row l)

/-- The left elements that match nothing. -/
def unmatched (m : α → β → Bool) (ls : List α) (rs : List β) : List α := ls.filter fun l => !rs.any (m l)

theorem pairs_concat_left (ls : List α) (l : α) (rs : List β) :
    pairs m row (ls ++ [l]) rs = pairs m row ls rs ++ (rs.filter (m l)).map (row l) := by
  simp [pairs]

theorem pairs_singleton (ls : List α) (r : β) :
    pairs m row ls [r] = (ls.filter fun l => m l r).map fun l => row l r := by
  induction ls with
  | nil => rfl
  | cons l ls ih =>
    rw [pairs, flatMap_cons, ← pairs, ih]
    by_cases h : m l r = true <;> simp [h]

theorem pairs_concat_right (ls : List α) (rs : List β) (r : β) :
    (pairs m row ls (rs ++ [r])).Perm (pairs m row ls rs ++ (ls.filter fun l => m l r).map fun l => row l r) := by
  have hs : pairs m row ls (rs ++ [r]) =
      ls.flatMap fun l => (rs.filter (m l)).map (row l) ++ ([r].filter (m l)).map (row l) := by
    simp only [pairs, filter_append, map_append]
  rw [hs, ← pairs_singleton]
  exact (flatMap_append_perm ls _ _).symm

section

variable {m' : α → β → Bool} {ls : List α} {rs : List β} (h : ∀ l ∈ ls, ∀ r ∈ rs, m l r = m' l r)

include h

theorem pairs_congr : pairs m row ls rs = pairs m' row ls rs := by
  refine flatMap_congr fun l hl => ?_
  rw [filter_congr fun r hr => h l hl r hr]

theorem unmatched_congr : unmatched m ls rs = unmatched m' ls rs := by
  refine filter_congr fun l hl => congrArg not (Bool.eq_iff_iff.mpr ?_)
  simp only [any_eq_true]
  exact ⟨fun ⟨r, hr, hm⟩ => ⟨r, hr, h l hl r hr ▸ hm⟩, fun ⟨r, hr, hm⟩ => ⟨r, hr, (h l hl r hr).symm ▸ hm⟩⟩

end

theorem filter_split {p p' q : α → Bool} {l : List α} (hp' : ∀ a ∈ l, p' a = (p a || q a))
    (hd : ∀ a ∈ l, p a = true → q a = false) : (l.filter p').Perm (l.filter p ++ l.filter q) := by
  induction l with
  | nil => exact .nil
  | cons a l ih =>
    obtain ⟨ha, hl⟩ := List.forall_mem_cons.mp hp'
    obtain ⟨hda, hdl⟩ := List.forall_mem_cons.mp hd
    have ih := ih hl hdl
    cases hpa : p a with
    | true =>
      rw [filter_cons_of_pos (by simp [ha, hpa]), filter_cons_of_pos hpa,
        filter_cons_of_neg (by simp [hda hpa])]
      exact ih.cons a
    | false =>
      cases hqa : q a with
      | true =>
        rw [filter_cons_of_pos (by simp [ha, hqa]), filter_cons_of_neg (by simp [hpa]),
          filter_cons_of_pos hqa]
        exact (ih.cons a).trans List.perm_middle.symm
      | false =>
        rw [filter_cons_of_neg (by simp [ha, hpa, hqa]), filter_cons_of_neg (by simp [hpa]),
          filter_cons_of_neg (by simp [hqa])]
        exact ih

end Sparrow.Library.NestedLoop
