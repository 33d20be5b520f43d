import Mathlib.Algebra.GroupWithZero.Nat
import Mathlib.Data.List.Sort
import Mathlib.Data.Prod.Lex
import Mathlib.Data.List.Lex
import Mathlib.Tactic.Order

/-!
# Sorted maps

A finite map kept as the list of its entries in strictly increasing key order,
which is how an ordered tree map is seen by the code that iterates it. The order
is a field of the structure, so every map that can be built is sorted, and a
statement about "the first entry" or "the entries in order" never has to assume it.

## What is proved

* `mem_entries_iff` — an entry is in the list exactly when the lookup finds it.
* `get?_insert`, `get?_erase`, `get?_modify` — the lookups after an update.
* `dropWhile_eq_filter` — dropping a downward closed front of a sorted list keeps exactly
  the rest.
* `sum_insert`, `sum_erase` — what an update does to a sum over the entries.

Updates are single passes over the entry list and structurally recursive, so a
closed map evaluates in the kernel.
-/

namespace Sparrow.Library

open List

/-- A finite map from an ordered key type, as the list of its entries in key order. -/
@[ext]
structure SortedMap (κ : Type*) (ν : Type*) [LinearOrder κ] where
  entries : List (κ × ν)
  sorted : entries.Pairwise fun a b => a.1 < b.1

namespace SortedMap

variable {κ ν : Type*} [LinearOrder κ]

instance [DecidableEq ν] : DecidableEq (SortedMap κ ν) := fun a b =>
  decidable_of_iff (a.entries = b.entries) SortedMap.ext_iff.symm

def empty : SortedMap κ ν := ⟨[], List.Pairwise.nil⟩

instance : Inhabited (SortedMap κ ν) := ⟨empty⟩

@[simp] theorem entries_empty : (empty : SortedMap κ ν).entries = [] := rfl

variable (m : SortedMap κ ν)

def size : ℕ := m.entries.length

@[simp] theorem size_empty : (empty : SortedMap κ ν).size = 0 := rfl

/-- The first value stored under `k` in an entry list. -/
def lookup (k : κ) : List (κ × ν) → Option ν
  | [] => none
  | (k', v) :: rest => if k' = k then some v else lookup k rest

/-- The value stored under `k`. -/
def get? (k : κ) : Option ν := lookup k m.entries

def first? : Option (κ × ν) := m.entries.head?

/-- Put `v` under `k` in an entry list, replacing what was there. -/
def insertEntry (k : κ) (v : ν) : List (κ × ν) → List (κ × ν)
  | [] => [(k, v)]
  | (k', v') :: rest =>
    if k < k' then (k, v) :: (k', v') :: rest
    else if k = k' then (k, v) :: rest
    else (k', v') :: insertEntry k v rest

variable {v : ν} {l : List (κ × ν)} {e : κ × ν} {k : κ}

theorem mem_insertEntry (h : e ∈ insertEntry k v l) : e = (k, v) ∨ e ∈ l := by
  induction l with
  | nil => exact .inl (List.mem_singleton.mp h)
  | cons a rest ih =>
    simp only [insertEntry] at h
    split_ifs at h with hlt heq
    · exact List.mem_cons.mp h
    · exact (List.mem_cons.mp h).imp id (mem_cons_of_mem a)
    · rcases List.mem_cons.mp h with rfl | h
      · exact .inr (mem_cons_self)
      · exact (ih h).imp id (mem_cons_of_mem a)

theorem pairwise_insertEntry (k : κ) (v : ν) (h : l.Pairwise fun a b => a.1 < b.1) :
    (insertEntry k v l).Pairwise fun a b => a.1 < b.1 := by
  induction l with
  | nil => exact pairwise_singleton ..
  | cons a rest ih =>
    obtain ⟨hh, hr⟩ := List.pairwise_cons.mp h
    simp only [insertEntry]
    split_ifs with hlt heq
    · refine List.pairwise_cons.mpr ⟨fun b hb => ?_, h⟩
      rcases List.mem_cons.mp hb with rfl | hb
      · exact hlt
      · exact hlt.trans (hh b hb)
    · exact List.pairwise_cons.mpr ⟨fun b hb => heq ▸ hh b hb, hr⟩
    · refine List.pairwise_cons.mpr ⟨fun b hb => ?_, ih hr⟩
      rcases mem_insertEntry hb with rfl | hb
      · exact lt_of_le_of_ne (not_lt.mp hlt) (Ne.symm heq)
      · exact hh b hb

/-- Put `v` under `k`, replacing what was there. -/
def insert (k : κ) (v : ν) : SortedMap κ ν :=
  ⟨insertEntry k v m.entries, pairwise_insertEntry k v m.sorted⟩

/-- Remove the entry under `k`. -/
def erase (k : κ) : SortedMap κ ν := ⟨m.entries.filter fun e => e.1 ≠ k, m.sorted.filter _⟩

/-- Change the value under `k`, if there is one. -/
def modify (k : κ) (f : ν → ν) : SortedMap κ ν :=
  ⟨m.entries.map fun e => if e.1 = k then (e.1, f e.2) else e, by
    refine List.pairwise_map.mpr (m.sorted.imp fun {a b} hab => ?_)
    split_ifs <;> exact hab⟩

/-- Remove entries from the front while they satisfy `p`. -/
def popWhile (p : κ × ν → Bool) : SortedMap κ ν :=
  ⟨m.entries.dropWhile p, m.sorted.sublist (dropWhile_sublist p)⟩

/-- Keep the entries that satisfy `p`. -/
def filter (m : SortedMap κ ν) (p : κ × ν → Bool) : SortedMap κ ν := ⟨m.entries.filter p, m.sorted.filter _⟩

/-- Remove the first `n` entries. -/
def popN (n : ℕ) : SortedMap κ ν := ⟨m.entries.drop n, m.sorted.sublist (drop_sublist n _)⟩

@[simp] theorem popN_zero (m : SortedMap κ ν) : m.popN 0 = m := rfl

@[simp] theorem entries_popWhile (m : SortedMap κ ν) (p : κ × ν → Bool) :
    (m.popWhile p).entries = m.entries.dropWhile p := rfl

@[simp] theorem entries_erase (m : SortedMap κ ν) (k : κ) :
    (m.erase k).entries = m.entries.filter fun e => e.1 ≠ k := rfl

@[simp] theorem entries_insert (m : SortedMap κ ν) (k : κ) (v : ν) :
    (m.insert k v).entries = insertEntry k v m.entries := rfl

/-! ### Lookup -/

@[simp] theorem get?_empty (k : κ) : (empty : SortedMap κ ν).get? k = none := rfl

theorem lookup_eq_some
    (hs : l.Pairwise fun a b => a.1 < b.1) : lookup k l = some v ↔ (k, v) ∈ l := by
  induction l with
  | nil => simp [lookup]
  | cons a rest ih =>
    obtain ⟨hh, hr⟩ := List.pairwise_cons.mp hs
    obtain ⟨k', v'⟩ := a
    simp only [lookup, mem_cons, Prod.mk.injEq]
    split_ifs with h
    · subst h
      refine ⟨fun hv => .inl ⟨rfl, (Option.some.inj hv).symm⟩, ?_⟩
      rintro (⟨-, rfl⟩ | hm)
      · rfl
      · exact absurd (hh _ hm) (lt_irrefl _)
    · rw [ih hr]
      exact ⟨.inr, fun hv => hv.resolve_left fun hk => h hk.1.symm⟩

variable {m : SortedMap κ ν}

theorem mem_entries_iff : (k, v) ∈ m.entries ↔ m.get? k = some v := (lookup_eq_some m.sorted).symm

theorem get?_eq_none_iff : m.get? k = none ↔ ∀ v, (k, v) ∉ m.entries := by
  simp only [mem_entries_iff]
  cases m.get? k <;> simp

theorem get?_insert (m : SortedMap κ ν) (k k' : κ) (v : ν) :
    (m.insert k v).get? k' = if k' = k then some v else m.get? k' := by
  obtain ⟨l, hs⟩ := m
  simp only [get?, entries_insert]
  induction l with
  | nil => simp [insertEntry, lookup, eq_comm]
  | cons a rest ih =>
    have ih := ih (List.pairwise_cons.mp hs).2
    obtain rfl | hk := eq_or_ne k' k
    · simp only [insertEntry, ↓reduceIte] at ih ⊢
      split_ifs with hlt heq
      · simp [lookup]
      · simp [lookup]
      · simp only [lookup, if_neg (Ne.symm heq), ih]
    · simp only [insertEntry, if_neg hk] at ih ⊢
      split_ifs with hlt heq
      · simp [lookup, Ne.symm hk]
      · simp [lookup, ← heq, Ne.symm hk]
      · simp only [lookup, ih]

variable {k' : κ}

theorem get?_insert_eq_some {v' : ν} :
    (m.insert k v).get? k' = some v' ↔ k' = k ∧ v = v' ∨ k' ≠ k ∧ m.get? k' = some v' := by
  rw [get?_insert]
  split_ifs with h <;> simp [h]

@[simp] theorem get?_insert_self (m : SortedMap κ ν) (k : κ) (v : ν) : (m.insert k v).get? k = some v := by
  simp [get?_insert]

theorem get?_insert_of_ne (m : SortedMap κ ν) (v : ν) (h : k' ≠ k) : (m.insert k v).get? k' = m.get? k' := by
  simp [get?_insert, h]

theorem get?_erase (m : SortedMap κ ν) (k k' : κ) : (m.erase k).get? k' = if k' = k then none else m.get? k' := by
  split_ifs with h
  · subst h
    exact get?_eq_none_iff.mpr fun v hv => by simp at hv
  · cases hg : m.get? k' with
    | none =>
      exact get?_eq_none_iff.mpr fun v hv =>
        get?_eq_none_iff.mp hg v (mem_of_mem_filter hv)
    | some v =>
      refine mem_entries_iff.mp (List.mem_filter.mpr ⟨mem_entries_iff.mpr hg, ?_⟩)
      simpa using h

theorem get?_erase_eq_some : (m.erase k).get? k' = some v ↔ k' ≠ k ∧ m.get? k' = some v := by
  rw [get?_erase]
  split_ifs with h <;> simp [h]

theorem get?_modify (m : SortedMap κ ν) (k k' : κ) (f : ν → ν) :
    (m.modify k f).get? k' = if k' = k then (m.get? k').map f else m.get? k' := by
  obtain ⟨l, hs⟩ := m
  simp only [get?, modify]
  induction l with
  | nil => simp [lookup]
  | cons a rest ih =>
    obtain ⟨ka, va⟩ := a
    by_cases hka : ka = k <;> by_cases hk' : ka = k' <;> grind [lookup]

/-! ### Popping from the front -/

theorem dropWhile_eq_filter {α : Type*} {r : α → α → Prop} {l : List α} (hl : l.Pairwise r)
    {p : α → Bool} (hp : ∀ a ∈ l, ∀ b ∈ l, r a b → p b = true → p a = true) :
    l.dropWhile p = l.filter fun a => !p a := by
  induction l with
  | nil => rfl
  | cons a rest ih =>
    obtain ⟨hh, hr⟩ := List.pairwise_cons.mp hl
    have ih := ih hr fun b hb c hc => hp b (mem_cons_of_mem a hb) c (mem_cons_of_mem a hc)
    by_cases ha : p a = true
    · simpa [dropWhile_cons, ha] using ih
    · have hal : ∀ b ∈ rest, (!p b) = true := fun b hb => by
        simpa using fun hb' =>
          ha (hp a mem_cons_self b (mem_cons_of_mem a hb) (hh b hb) hb')
      simp [ha, List.filter_eq_self.mpr hal]

/-! ### The first entry -/

theorem get?_of_first? (h : m.first? = some e) : m.get? e.1 = some e.2 := mem_entries_iff.mp (mem_of_head? h)

theorem first?_le (h : m.get? k = some v) : ∃ e, m.first? = some e ∧ e.1 ≤ k := by
  have hm := mem_entries_iff.mpr h
  have hs := m.sorted
  unfold first?
  cases hl : m.entries with
  | nil => simp [hl] at hm
  | cons e rest =>
    refine ⟨e, rfl, ?_⟩
    rw [hl] at hm hs
    obtain rfl | hr := List.mem_cons.mp hm
    · exact le_rfl
    · exact ((List.pairwise_cons.mp hs).1 _ hr).le

/-! ### Entries after a key -/

/-- The entries after `k` that satisfy `p`. -/
def after (m : SortedMap κ ν) (k : κ) (p : ν → Bool) : List (κ × ν) :=
  m.entries.filter fun e => decide (k < e.1) && p e.2

section

variable {m : SortedMap κ ν} {k : κ} {p : ν → Bool}

theorem mem_after : e ∈ m.after k p ↔ m.get? e.1 = some e.2 ∧ k < e.1 ∧ p e.2 = true := by
  rw [after, mem_filter, ← mem_entries_iff, Bool.and_eq_true, decide_eq_true_eq]

theorem after_of_find?
    (h : (m.entries.filter fun e => k < e.1).find? (fun e => p e.2) = some e) : m.after k p = e :: m.after e.1 p := by
  obtain ⟨l, hs⟩ := m
  simp only [after] at h ⊢
  induction l with
  | nil => simp at h
  | cons a rest ih =>
    obtain ⟨hh, hr⟩ := List.pairwise_cons.mp hs
    by_cases ha : k < a.1 ∧ p a.2 = true
    · obtain rfl : a = e := by simpa [ha.1, ha.2] using h
      have hl : rest.filter (fun x => decide (k < x.1) && p x.2) =
          rest.filter fun x => decide (a.1 < x.1) && p x.2 := by
        refine filter_congr fun x hx => ?_
        simp [hh x hx, ha.1.trans (hh x hx)]
      simp [ha.1, ha.2, hl]
    · have h' : (rest.filter fun e => decide (k < e.1)).find? (fun e => p e.2) = some e := by
        by_cases hk : k < a.1
        · have hp : p a.2 = false := by simpa [hk] using ha
          simpa [hk, hp] using h
        · simpa [hk] using h
      have he : e ∈ rest := (List.mem_filter.mp (mem_of_find?_eq_some h')).1
      have hn : ¬ e.1 < a.1 := not_lt.mpr (hh e he).le
      rw [filter_cons_of_neg (by simpa using ha), filter_cons_of_neg (by simp [hn])]
      exact ih hr h'

theorem after_of_find?_none (h : (m.entries.filter fun e => k < e.1).find? (fun e => p e.2) =
    none) : m.after k p = [] := by
  rw [find?_eq_none] at h
  refine List.filter_eq_nil_iff.mpr fun e he => ?_
  simpa using fun hk => by simpa using h e (by simpa [he] using hk)

end

theorem after_modify (m : SortedMap κ ν) (k : κ) (f : ν → ν) (p : ν → Bool) :
    (m.modify k f).after k p = m.after k p := by
  obtain ⟨l, hs⟩ := m
  simp only [after, modify]
  induction l with
  | nil => rfl
  | cons a rest ih =>
    have ih := ih (List.pairwise_cons.mp hs).2
    by_cases ha : a.1 = k
    · simp [ha, ih]
    · simp only [map_cons, ha, ↓reduceIte, filter_cons, ih]

/-! ### Extensionality -/

variable {m' : SortedMap κ ν}

/-- **A map is determined by its lookups.** -/
theorem ext_get? (h : ∀ k, m.get? k = m'.get? k) : m = m' := by
  have hm : ∀ e, e ∈ m.entries ↔ e ∈ m'.entries := fun ⟨k, v⟩ => by
    rw [mem_entries_iff, mem_entries_iff, h]
  have hn : ∀ m : SortedMap κ ν, m.entries.Nodup := fun m =>
    m.sorted.imp fun hab heq => absurd (heq ▸ hab) (lt_irrefl _)
  refine SortedMap.ext (Perm.eq_of_pairwise (fun a b _ _ hab hba => ?_) m.sorted m'.sorted
    ((perm_ext_iff_of_nodup (hn m) (hn m')).mpr hm))
  exact absurd hab (not_lt.mpr hba.le)

theorem entries_of_get?_map {g : κ → ν → ν} (h : ∀ k, m'.get? k = (m.get? k).map (g k)) :
    m'.entries = m.entries.map fun e => (e.1, g e.1 e.2) := by
  have hs : (m.entries.map fun e => (e.1, g e.1 e.2)).Pairwise fun a b => a.1 < b.1 :=
    List.pairwise_map.mpr m.sorted
  suffices hm : m' = ⟨_, hs⟩ from congrArg entries hm
  refine ext_get? fun k => Option.ext fun v => ?_
  rw [h, ← mem_entries_iff, Option.map_eq_some_iff]
  simp only [mem_map, Prod.mk.injEq, Prod.exists]
  constructor
  · rintro ⟨v₀, hv₀, rfl⟩
    exact ⟨k, v₀, mem_entries_iff.mpr hv₀, rfl, rfl⟩
  · rintro ⟨k', v₀, hme, rfl, rfl⟩
    exact ⟨v₀, mem_entries_iff.mp hme, rfl⟩

theorem insert_insert (m : SortedMap κ ν) (k : κ) (v v' : ν) : (m.insert k v).insert k v' = m.insert k v' :=
  ext_get? fun k' => by
    simp only [get?_insert]
    split_ifs <;> rfl

theorem modify_insert (m : SortedMap κ ν) (k : κ) (v : ν) (f : ν → ν) : (m.insert k v).modify k f = m.insert k (f v) :=
  ext_get? fun k' => by
    simp only [get?_modify, get?_insert]
    split_ifs <;> rfl

theorem modify_eq_insert (h : m.get? k = some v) (f : ν → ν) : m.modify k f = m.insert k (f v) := by
  refine ext_get? fun k' => ?_
  rw [get?_modify, get?_insert]
  split_ifs with hk
  · simp [hk, h]
  · rfl

theorem modify_modify (m : SortedMap κ ν) (k : κ) (f g : ν → ν) :
    (m.modify k f).modify k g = m.modify k fun v => g (f v) :=
  ext_get? fun k' => by
    simp only [get?_modify]
    split_ifs
    · rw [Option.map_map]
      rfl
    · rfl

/-! ### Building a map from its entries -/

theorem get?_foldl_insert (hl : l.Pairwise fun a b => a.1 ≠ b.1) (hf : ∀ e ∈ l, m.get? e.1 = none) :
    (l.foldl (fun m e => m.insert e.1 e.2) m).get? k = some v ↔ (k, v) ∈ l ∨ m.get? k = some v := by
  induction l generalizing m with
  | nil => simp
  | cons e rest ih =>
    obtain ⟨hh, hr⟩ := List.pairwise_cons.mp hl
    have hf' : ∀ e' ∈ rest, (m.insert e.1 e.2).get? e'.1 = none := by
      intro e' he'
      rw [get?_insert_of_ne m e.2 (hh e' he').symm]
      exact hf e' (mem_cons_of_mem _ he')
    rw [foldl_cons, ih hr hf', get?_insert, mem_cons]
    by_cases hk : k = e.1
    · have hn := hf e mem_cons_self
      subst hk
      simp [hn, Prod.ext_iff, or_comm, eq_comm]
    · simp [hk, Prod.ext_iff]

/-- **A map is what its entries build.** -/
theorem foldl_insert_entries (m : SortedMap κ ν) : m.entries.foldl (fun m e => m.insert e.1 e.2) .empty = m := by
  have hne : m.entries.Pairwise fun a b => a.1 ≠ b.1 := m.sorted.imp fun h => h.ne
  refine ext_get? fun k => Option.ext fun v => ?_
  rw [get?_foldl_insert hne fun _ _ => get?_empty _, mem_entries_iff]
  simp

/-! ### Sums over the entries -/

section

variable {m : SortedMap κ ν} {k : κ}

theorem sum_insert (hk : m.get? k = some v) (v' : ν) (f : κ × ν → ℕ) :
    ((m.insert k v').entries.map f).sum + f (k, v) = (m.entries.map f).sum + f (k, v') := by
  obtain ⟨l, hs⟩ := m
  simp only [get?, entries_insert] at hk ⊢
  induction l with
  | nil => simp [lookup] at hk
  | cons a rest ih =>
    obtain ⟨hh, hr⟩ := List.pairwise_cons.mp hs
    obtain ⟨ka, va⟩ := a
    obtain rfl | heq := eq_or_ne ka k
    · obtain rfl : va = v := by simpa [lookup] using hk
      simp only [insertEntry, lt_irrefl, ↓reduceIte, map_cons, sum_cons]
      omega
    · have hk' : lookup k rest = some v := by simpa [lookup, heq] using hk
      have hlt : ka < k := hh (k, v) ((lookup_eq_some hr).mp hk')
      have := ih hr hk'
      simp only [insertEntry, not_lt.mpr hlt.le, Ne.symm heq, ↓reduceIte, map_cons, sum_cons]
      omega

theorem sum_insert_of_none (hk : m.get? k = none) (v : ν) (f : κ × ν → ℕ) :
    ((m.insert k v).entries.map f).sum = (m.entries.map f).sum + f (k, v) := by
  obtain ⟨l, hs⟩ := m
  simp only [get?, entries_insert] at hk ⊢
  induction l with
  | nil => simp [insertEntry]
  | cons a rest ih =>
    obtain ⟨hh, hr⟩ := List.pairwise_cons.mp hs
    obtain ⟨ka, va⟩ := a
    have hne : ka ≠ k := fun heq => by simp [lookup, heq] at hk
    have hk' : lookup k rest = none := by simpa [lookup, hne] using hk
    simp only [insertEntry, hne.symm, ↓reduceIte]
    split_ifs
    · simp only [map_cons, sum_cons]
      omega
    · simp only [map_cons, sum_cons, ih hr hk']
      omega

theorem sum_erase (hk : m.get? k = some v) (f : κ × ν → ℕ) :
    ((m.erase k).entries.map f).sum + f (k, v) = (m.entries.map f).sum := by
  obtain ⟨l, hs⟩ := m
  simp only [get?, entries_erase] at hk ⊢
  induction l with
  | nil => simp [lookup] at hk
  | cons a rest ih =>
    obtain ⟨hh, hr⟩ := List.pairwise_cons.mp hs
    obtain ⟨ka, va⟩ := a
    obtain rfl | heq := eq_or_ne ka k
    · obtain rfl : va = v := by simpa [lookup] using hk
      have hse : rest.filter (fun e => e.1 ≠ ka) = rest :=
        List.filter_eq_self.mpr fun e he => by simpa using (hh e he).ne'
      simp only [ne_eq, not_true_eq_false, decide_false, Bool.false_eq_true, not_false_eq_true,
        filter_cons_of_neg, map_cons, sum_cons] at hse ⊢
      rw [hse]
      omega
    · have hk' : lookup k rest = some v := by simpa [lookup, heq] using hk
      have := ih hr hk'
      rw [filter_cons_of_pos (by simpa using heq), map_cons, map_cons, sum_cons, sum_cons]
      omega

theorem length_insertEntry (k : κ) (v : ν) (l : List (κ × ν)) : (insertEntry k v l).length ≤ l.length + 1 := by
  induction l with
  | nil => simp [insertEntry]
  | cons e rest ih =>
    simp only [insertEntry]
    split_ifs <;> simp only [length_cons] <;> omega

theorem size_insert_le (m : SortedMap κ ν) (k : κ) (v : ν) : (m.insert k v).size ≤ m.size + 1 :=
  length_insertEntry k v m.entries

theorem size_insert_of_none (hk : m.get? k = none) (v : ν) : (m.insert k v).size = m.size + 1 := by
  simpa [size] using sum_insert_of_none hk v fun _ => 1

theorem size_insert_of_some (hk : m.get? k = some v) (v' : ν) : (m.insert k v').size = m.size := by
  simpa [size] using sum_insert hk v' fun _ => 1

@[simp] theorem size_modify (m : SortedMap κ ν) (k : κ) (f : ν → ν) : (m.modify k f).size = m.size := by
  simp [size, modify]

theorem size_erase_le (m : SortedMap κ ν) (k : κ) : (m.erase k).size ≤ m.size := by
  simpa [size] using length_filter_le _ m.entries

theorem size_erase (hk : m.get? k = some v) : (m.erase k).size + 1 = m.size := by
  simpa [size] using sum_erase hk fun _ => 1

end

end SortedMap

end Sparrow.Library
