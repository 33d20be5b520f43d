import Mathlib.Data.List.Chain
import Mathlib.Order.Lattice

/-!
# Timelines

A history of versions, each valid from a start to a stop that may still be open. `Tiles`
says that the versions follow each other without gaps and that only the last is open, and
`asOf` reads the version of a time the way a program does, from the newest back.

## What is proved

* `asOf_eq_some`, `asOf_eq_none` — the version of a time is the latest one that has started.
* `Tiles.concat`, `Tiles.drop` — the history goes on when a version is added or the oldest
  are dropped.
* `asOf_concat`, `asOf_filter` — which times such a change leaves alone.
-/

namespace Sparrow.Library

open List

variable {α β : Type*} (start : α → ℤ) (stop : α → Option ℤ)

/-- The versions follow each other, and the last is open. -/
structure Tiles (l : List α) : Prop where
  chain : l.IsChain fun a b => stop a = some (start b) ∧ start a < start b
  last : ∀ a, l.getLast? = some a → stop a = none

def covers (t : ℤ) (a : α) : Bool := start a ≤ t ∧ (stop a).all fun e => t < e

/-- The version of a time, looked for from the newest back. -/
def asOf (l : List α) (t : ℤ) : Option α := l.reverse.find? (covers start stop t)

variable {start stop} {l : List α} {a b : α} {t : ℤ}

namespace Tiles

theorem nil : Tiles start stop ([] : List α) := ⟨.nil, nofun⟩

theorem tail (h : Tiles start stop (a :: b :: l)) : Tiles start stop (b :: l) :=
  ⟨(List.isChain_cons_cons.mp h.chain).2, fun c hc => h.last c (by simpa using hc)⟩

theorem pairwise (h : Tiles start stop l) :
    l.Pairwise fun a b => start a < start b ∧ ∃ e, stop a = some e ∧ e ≤ start b := by
  induction l with
  | nil => exact .nil
  | cons a rest ih =>
    cases rest with
    | nil => exact pairwise_singleton ..
    | cons b rest =>
      obtain ⟨⟨hs, hlt⟩, -⟩ := List.isChain_cons_cons.mp h.chain
      have hr := ih h.tail
      refine List.pairwise_cons.mpr ⟨fun c hc => ?_, hr⟩
      rcases List.mem_cons.mp hc with rfl | hc
      · exact ⟨hlt, _, hs, le_rfl⟩
      · have hbc := ((List.pairwise_cons.mp hr).1 c hc).1
        exact ⟨hlt.trans hbc, _, hs, hbc.le⟩

theorem open_iff (h : Tiles start stop (l ++ [a])) (hb : b ∈ l ++ [a]) : stop b = none ↔ b = a := by
  refine ⟨fun hn => ?_, fun hba => hba ▸ h.last a (by simp)⟩
  rcases List.mem_append.mp hb with hb | hb
  · obtain ⟨-, e, he, -⟩ := (List.pairwise_append.mp h.pairwise).2.2 b hb a (by simp)
    rw [hn] at he
    cases he
  · exact List.mem_singleton.mp hb

theorem drop (h : Tiles start stop l) (n : ℕ) : Tiles start stop (l.drop n) := by
  refine ⟨h.chain.drop n, fun a ha => h.last a ?_⟩
  rw [getLast?_drop] at ha
  split_ifs at ha
  exact ha

end Tiles

theorem asOf_concat_eq (l : List α) (a : α) (t : ℤ) :
    asOf start stop (l ++ [a]) t = if covers start stop t a then some a else asOf start stop l t := by
  simp only [asOf, reverse_append, reverse_singleton, singleton_append, find?_cons]
  cases covers start stop t a <;> rfl

theorem covers_iff : covers start stop t a = true ↔ start a ≤ t ∧ ∀ e, stop a = some e → t < e := by
  cases h : stop a <;> simp [covers, h]

/-- **The version of a time is the latest one that has started.** -/
theorem asOf_eq_some (h : Tiles start stop l) :
    asOf start stop l t = some a ↔ a ∈ l ∧ start a ≤ t ∧ ∀ b ∈ l, start b ≤ t → start b ≤ start a := by
  constructor
  · intro ha
    have hm : a ∈ l := List.mem_reverse.mp (mem_of_find?_eq_some ha)
    obtain ⟨hs, hst⟩ := covers_iff.mp (find?_some ha)
    refine ⟨hm, hs, fun b hb hbt => ?_⟩
    -- a version that starts later would start at or after the stop of `a`
    by_contra hlt
    obtain ⟨l₁, l₂, rfl⟩ := append_of_mem hm
    have hp := List.pairwise_append.mp h.pairwise
    rcases List.mem_append.mp hb with hb | hb
    · have := (hp.2.2 b hb a mem_cons_self).1
      omega
    · rcases List.mem_cons.mp hb with rfl | hb
      · exact hlt le_rfl
      · obtain ⟨-, e, he, hle⟩ := (List.pairwise_cons.mp hp.2.1).1 b hb
        have := hst e he
        omega
  · rintro ⟨hm, hs, hma⟩
    obtain ⟨l₁, l₂, rfl⟩ := append_of_mem hm
    have hp := List.pairwise_append.mp h.pairwise
    have hl : ∀ b ∈ l₂, t < start b := fun b hb => by
      by_contra hle
      have := hma b (mem_append_right _ (mem_cons_of_mem _ hb)) (not_lt.mp hle)
      have := ((List.pairwise_cons.mp hp.2.1).1 b hb).1
      omega
    have hco : covers start stop t a = true := by
      refine covers_iff.mpr ⟨hs, fun e he => ?_⟩
      cases l₂ with
      | nil =>
        have := h.last a (by simp)
        rw [this] at he
        cases he
      | cons b l₂ =>
        have hch := (List.isChain_append.mp h.chain).2.1
        obtain ⟨⟨hst, -⟩, -⟩ := List.isChain_cons_cons.mp hch
        rw [hst] at he
        cases he
        exact hl b mem_cons_self
    rw [asOf, reverse_append, reverse_cons, append_assoc, find?_append, Option.or_eq_some_iff]
    refine .inr ⟨List.find?_eq_none.mpr fun b hb => ?_, by simp [hco]⟩
    have := hl b (List.mem_reverse.mp hb)
    intro hc
    have := (covers_iff.mp hc).1
    omega

theorem Tiles.exists_latest (h : Tiles start stop l) (hb : b ∈ l) (hbt : start b ≤ t) :
    ∃ a ∈ l, start a ≤ t ∧ ∀ c ∈ l, start c ≤ t → start c ≤ start a := by
  induction l generalizing b with
  | nil => simp at hb
  | cons c rest ih =>
    obtain ⟨hh, -⟩ := List.pairwise_cons.mp h.pairwise
    by_cases han : ∃ d ∈ rest, start d ≤ t
    · obtain ⟨d, hd, hdt⟩ := han
      obtain ⟨a, ha, hat, hm⟩ := ih (by simpa using h.drop 1) hd hdt
      refine ⟨a, mem_cons_of_mem _ ha, hat, fun e he het => ?_⟩
      rcases List.mem_cons.mp he with rfl | he
      · exact (hh a ha).1.le
      · exact hm e he het
    · have hn : ∀ d ∈ rest, ¬ start d ≤ t := fun d hd hdt => han ⟨d, hd, hdt⟩
      rcases List.mem_cons.mp hb with rfl | hb
      · refine ⟨b, mem_cons_self, hbt, fun d hd hdt => ?_⟩
        rcases List.mem_cons.mp hd with rfl | hd
        · exact le_rfl
        · exact absurd hdt (hn d hd)
      · exact absurd hbt (hn b hb)

theorem asOf_eq_none (h : Tiles start stop l) : asOf start stop l t = none ↔ ∀ b ∈ l, t < start b := by
  constructor
  · intro hn b hb
    by_contra hbt
    obtain ⟨a, ha⟩ := h.exists_latest hb (not_lt.mp hbt)
    rw [(asOf_eq_some h).mpr ha] at hn
    cases hn
  · intro hal
    refine List.find?_eq_none.mpr fun b hb hc => ?_
    have := hal b (List.mem_reverse.mp hb)
    have := (covers_iff.mp hc).1
    omega

/-! ### Changes -/

theorem Tiles.concat {a' b : α} (h : Tiles start stop (l ++ [a])) (hs : start a' = start a)
    (hst : stop a' = some (start b)) (hlt : start a < start b) (ho : stop b = none) :
    Tiles start stop (l ++ [a', b]) := by
  refine ⟨?_, fun c hc => ?_⟩
  · obtain ⟨hl, -, hli⟩ := List.isChain_append.mp h.chain
    refine List.isChain_append.mpr ⟨hl, ?_, ?_⟩
    · exact List.isChain_cons_cons.mpr ⟨⟨hst, hs ▸ hlt⟩, isChain_singleton _⟩
    · intro x hx y hy
      cases hy
      have := hli x hx a rfl
      rwa [hs]
  · obtain rfl : b = c := by simpa using hc
    exact ho

theorem tiles_singleton (h : stop a = none) : Tiles start stop [a] :=
  ⟨isChain_singleton _, fun b hb => by obtain rfl := Option.some.inj hb; exact h⟩

theorem asOf_concat {a' b : α} (f : α → β) (h : Tiles start stop (l ++ [a])) (hs : start a' = start a)
    (hst : stop a' = some (start b)) (hf : f a' = f a) (ht : t < start b) :
    (asOf start stop (l ++ [a', b]) t).map f = (asOf start stop (l ++ [a]) t).map f := by
  have ho := h.last a (by simp)
  have hb : covers start stop t b = false := by
    rw [← Bool.not_eq_true, covers_iff]
    exact fun hc => absurd hc.1 (not_le.mpr ht)
  have ha : covers start stop t a' = covers start stop t a := by
    rw [Bool.eq_iff_iff, covers_iff, covers_iff, hs, hst, ho]
    simp [ht]
  rw [show l ++ [a', b] = (l ++ [a']) ++ [b] by simp, asOf_concat_eq, hb, asOf_concat_eq, ha, asOf_concat_eq]
  cases covers start stop t a <;> simp [hf]

theorem filter_eq_drop (h : Tiles start stop l) (w : ℤ) :
    ∃ n, (l.filter fun a => (stop a).all fun e => w < e) = l.drop n := by
  induction l with
  | nil => exact ⟨0, rfl⟩
  | cons a rest ih =>
    by_cases ha : ((stop a).all fun e => w < e) = true
    · -- later versions end later
      refine ⟨0, List.filter_eq_self.mpr fun b hb => ?_⟩
      rcases List.mem_cons.mp hb with rfl | hb
      · exact ha
      · cases hst : stop b with
        | none => rfl
        | some e =>
          obtain ⟨-, e', he', hle⟩ := (List.pairwise_cons.mp h.pairwise).1 b hb
          rw [he'] at ha
          have hbe : start b < e := by
            have hm : b ∈ a :: rest := mem_cons_of_mem _ hb
            obtain ⟨l₁, l₂, heq⟩ := append_of_mem hm
            rw [heq] at h
            cases l₂ with
            | nil => rw [h.last b (by simp)] at hst; cases hst
            | cons c l₂ =>
              obtain ⟨⟨hs, hlt⟩, -⟩ := List.isChain_cons_cons.mp (List.isChain_append.mp h.chain).2.1
              rw [hst] at hs
              cases hs
              exact hlt
          simp only [Option.all_some, decide_eq_true_eq] at ha ⊢
          omega
    · have ht : Tiles start stop rest := by
        simpa using h.drop 1
      obtain ⟨n, hn⟩ := ih ht
      refine ⟨n + 1, ?_⟩
      rw [drop_succ_cons, ← hn]
      exact filter_cons_of_neg ha

theorem asOf_filter (l : List α) {w : ℤ} (hw : w ≤ t) :
    asOf start stop (l.filter fun a => (stop a).all fun e => w < e) t = asOf start stop l t := by
  unfold asOf
  rw [← filter_reverse, find?_filter]
  congr 1
  funext a
  rw [Bool.eq_iff_iff, decide_eq_true_eq, covers_iff]
  refine ⟨fun h => h.2, fun h => ⟨?_, h⟩⟩
  cases hs : stop a with
  | none => rfl
  | some e =>
    have := h.2 e hs
    simp only [Option.all_some, decide_eq_true_eq]
    omega

end Sparrow.Library
