import Mathlib.Data.List.Sort
import Mathlib.Tactic.Order

/-!
# Arrivals in time order

Items arrive one after the other and carry a time. `byTime` puts a list of arrivals
in time order, items of one time in the order they arrived; `place` puts one more
arrival into a list that is in time order.

## What is proved

* `map_place` — placing commutes with a map that keeps the times.
-/

namespace Sparrow.Library

open List

variable {α β : Type*}

/-- The items in time order; equal times stay in arrival order. -/
def byTime (τ : α → ℤ) (l : List α) : List α := l.insertionSort fun a b => τ a ≤ τ b

/-- Put `a` after everything of its time or earlier. -/
def place (τ : α → ℤ) (a : α) (l : List α) : List α :=
  l.takeWhile (fun b => τ b ≤ τ a) ++ a :: l.dropWhile fun b => τ b ≤ τ a

variable (τ : α → ℤ)

instance isTrans_le : IsTrans α fun a b => τ a ≤ τ b := ⟨fun _ _ _ => le_trans⟩

instance total_le : Std.Total fun a b : α => τ a ≤ τ b := ⟨fun _ _ => le_total _ _⟩

theorem pairwise_byTime (l : List α) : (byTime τ l).Pairwise fun a b => τ a ≤ τ b := pairwise_insertionSort _ l

theorem perm_byTime (l : List α) : (byTime τ l).Perm l := perm_insertionSort _ l

variable {l : List α}

@[simp] theorem mem_byTime {a : α} : a ∈ byTime τ l ↔ a ∈ l := mem_insertionSort _

@[simp] theorem byTime_nil : byTime τ [] = [] := rfl

theorem byTime_cons (a : α) (l : List α) :
    byTime τ (a :: l) = (byTime τ l).orderedInsert (fun a b => τ a ≤ τ b) a := rfl

@[simp] theorem place_nil (a : α) : place τ a [] = [a] := rfl

theorem place_cons (a b : α) (l : List α) :
    place τ a (b :: l) = if τ b ≤ τ a then b :: place τ a l else a :: b :: l := by
  unfold place
  split_ifs with h <;> simp [h]

theorem orderedInsert_place (a b : α) (l : List α) :
    (place τ a l).orderedInsert (fun a b => τ a ≤ τ b) b = place τ a (l.orderedInsert (fun a b => τ a ≤ τ b) b) := by
  induction l with
  | nil =>
    rw [place_nil, orderedInsert_nil, orderedInsert_cons, place_cons]
    split_ifs <;> rfl
  | cons c rest ih =>
    -- the two meet in the order of the three times
    by_cases hca : τ c ≤ τ a <;> by_cases hbc : τ b ≤ τ c
    · have hba := hbc.trans hca
      simp [place_cons, hca, hbc, hba]
    · simp [place_cons, hca, hbc, ih]
    · by_cases hba : τ b ≤ τ a <;> simp [place_cons, hca, hbc, hba]
    · have hba : ¬ τ b ≤ τ a := by omega
      simp [place_cons, hca, hbc, hba]

/-- **Arranging one arrival more is placing it.** -/
theorem byTime_concat (l : List α) (a : α) : byTime τ (l ++ [a]) = place τ a (byTime τ l) := by
  induction l with
  | nil => rfl
  | cons b rest ih => rw [cons_append, byTime_cons, ih, orderedInsert_place, ← byTime_cons]

theorem filter_orderedInsert (hl : l.Pairwise fun a b => τ a ≤ τ b) (a : α) (p : α → Bool) :
    (l.orderedInsert (fun a b => τ a ≤ τ b) a).filter p =
      if p a then (l.filter p).orderedInsert (fun a b => τ a ≤ τ b) a else l.filter p := by
  induction l with
  | nil => cases hp : p a <;> simp [hp]
  | cons b rest ih =>
    obtain ⟨hh, hr⟩ := List.pairwise_cons.mp hl
    rw [orderedInsert_cons]
    split_ifs with hab hp hp
    · -- everything selected comes at or after `a`
      have ha : ∀ c ∈ (b :: rest).filter p, τ a ≤ τ c := fun c hc => by
        rcases List.mem_cons.mp (mem_of_mem_filter hc) with rfl | hc
        · exact hab
        · exact hab.trans (hh c hc)
      rw [filter_cons_of_pos hp]
      cases hf : (b :: rest).filter p with
      | nil => rfl
      | cons c cs => rw [orderedInsert_cons, if_pos (ha c (by simp [hf]))]
    · rw [filter_cons_of_neg hp]
    · rw [filter_cons, filter_cons, ih hr, if_pos hp]
      split_ifs with hb
      · rw [orderedInsert_cons, if_neg hab]
      · rfl
    · rw [filter_cons, filter_cons, ih hr, if_neg hp]

/-- **Selecting and arranging commute.** -/
theorem filter_byTime (l : List α) (p : α → Bool) : (byTime τ l).filter p = byTime τ (l.filter p) := by
  induction l with
  | nil => rfl
  | cons a rest ih =>
    rw [byTime_cons, filter_orderedInsert τ (pairwise_byTime τ rest), ih, filter_cons]
    split_ifs <;> rfl

theorem filter_append_filter (hl : l.Pairwise fun a b => τ a ≤ τ b) (c : ℤ) :
    (l.filter fun a => τ a ≤ c) ++ (l.filter fun a => c < τ a) = l := by
  induction l with
  | nil => rfl
  | cons a rest ih =>
    obtain ⟨hh, hr⟩ := List.pairwise_cons.mp hl
    by_cases ha : τ a ≤ c
    · simpa [ha, not_lt.mpr ha] using ih hr
    · have hla : ∀ b ∈ rest, c < τ b := fun b hb => (not_le.mp ha).trans_le (hh b hb)
      have hn : (rest.filter fun b => τ b ≤ c) = [] :=
        List.filter_eq_nil_iff.mpr fun b hb => by simpa using hla b hb
      have hal : (rest.filter fun b => c < τ b) = rest := List.filter_eq_self.mpr fun b hb => by simpa using hla b hb
      simp [not_le.mp ha, hn, hal]

variable {τ}

theorem map_place {υ : β → ℤ} {f : α → β} (hf : ∀ a, υ (f a) = τ a) (a : α) (l : List α) :
    (place τ a l).map f = place υ (f a) (l.map f) := by
  induction l with
  | nil => rfl
  | cons b rest ih =>
    rw [place_cons, map_cons, place_cons, hf, hf, ← ih]
    split_ifs <;> rfl

theorem map_byTime_eq_of_perm {r : List α} (h : (l.map τ).Perm (r.map τ)) :
    (byTime τ l).map τ = (byTime τ r).map τ := by
  have hs : ∀ l : List α, ((byTime τ l).map τ).Pairwise (· ≤ ·) := fun l =>
    List.pairwise_map.mpr (pairwise_byTime τ l)
  refine Perm.eq_of_pairwise (fun a b _ _ hab hba => le_antisymm hab hba) (hs l) (hs r) ?_
  exact ((perm_byTime τ l).map τ).trans (h.trans ((perm_byTime τ r).map τ).symm)

end Sparrow.Library
