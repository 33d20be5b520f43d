import Mathlib.Data.List.Basic
import Mathlib.Tactic.Ring

/-!
# Greedy segmentation by gaps

Items on a time line are cut into segments. A segment starts at the first item left,
at time `f`, and takes the next item as long as it comes before the segment's stop,
which is `gap` after the last item taken but at most `span` after `f`.
-/

namespace Sparrow.Library.Sessions

open List

variable {α : Type*} (τ : α → ℤ) (gap span : ℤ)

/-- Extend a segment that stops at `stop`, never beyond `cap`: the items taken, the stop
reached, and the items left. -/
def extend (cap : ℤ) : ℤ → List α → List α × ℤ × List α
  | stop, [] => ([], stop, [])
  | stop, e :: rest =>
    if τ e < stop then
      let (taken, last, left) := extend cap (min (τ e + gap) cap) rest
      (e :: taken, last, left)
    else ([], stop, e :: rest)

/-- One segment: its bounds and its items. -/
structure Segment (α : Type*) where
  start : ℤ
  stop : ℤ
  items : List α
  deriving DecidableEq

/-- The items taken by the segment that starts at `f`, its stop, and the items left. -/
def first (f : α) (rest : List α) : List α × ℤ × List α := extend τ gap (τ f + span) (min (τ f + gap) (τ f + span)) rest

theorem length_extend_le (cap stop : ℤ) (l : List α) : (extend τ gap cap stop l).2.2.length ≤ l.length := by
  induction l generalizing stop with
  | nil => simp [extend]
  | cons e rest ih =>
    simp only [extend]
    split_ifs
    · exact (ih _).trans (Nat.le_succ _)
    · exact le_rfl

def segments : List α → List (Segment α)
  | [] => []
  | f :: rest =>
    let s := first τ gap span f rest
    { start := τ f, stop := s.2.1, items := f :: s.1 } :: segments s.2.2
  termination_by l => l.length
  decreasing_by exact Nat.lt_succ_of_le (length_extend_le τ gap _ _ rest)

variable {τ gap span}

/-! ### One segment -/

theorem extend_append (cap stop : ℤ) (l : List α) :
    (extend τ gap cap stop l).1 ++ (extend τ gap cap stop l).2.2 = l := by
  induction l generalizing stop with
  | nil => simp [extend]
  | cons e rest ih =>
    simp only [extend]
    split_ifs
    · simp [ih]
    · rfl

variable {cap stop lower : ℤ}

theorem extend_stop_le (h : stop ≤ cap) (l : List α) : (extend τ gap cap stop l).2.1 ≤ cap := by
  induction l generalizing stop with
  | nil => simpa [extend] using h
  | cons e rest ih =>
    simp only [extend]
    split_ifs
    · exact ih (min_le_right _ _)
    · exact h

section

variable {l : List α} (hstop : stop ≤ min (lower + gap) cap) (hl : ∀ e ∈ l, lower ≤ τ e)
  (hsorted : l.Pairwise fun a b => τ a ≤ τ b)

include hstop hl hsorted

theorem le_extend_stop : stop ≤ (extend τ gap cap stop l).2.1 := by
  induction l generalizing stop lower with
  | nil => simp [extend]
  | cons e rest ih =>
    simp only [extend]
    split_ifs with he
    · have hle := hl e mem_cons_self
      have hm : stop ≤ min (τ e + gap) cap := by omega
      exact hm.trans (ih le_rfl (fun b hb => (List.pairwise_cons.mp hsorted).1 b hb)
        (List.pairwise_cons.mp hsorted).2)
    · exact le_rfl

/-- **A segment takes exactly the items before its stop**, on a list in time order. -/
theorem extend_spec : (∀ e ∈ (extend τ gap cap stop l).1, τ e < (extend τ gap cap stop l).2.1) ∧
      ∀ e ∈ (extend τ gap cap stop l).2.2, (extend τ gap cap stop l).2.1 ≤ τ e := by
  induction l generalizing stop lower with
  | nil => simp [extend]
  | cons e rest ih =>
    obtain ⟨hh, ht⟩ := List.pairwise_cons.mp hsorted
    have hle := hl e mem_cons_self
    by_cases he : τ e < stop
    · have hm : stop ≤ min (τ e + gap) cap := by omega
      have hg := le_extend_stop (le_refl (min (τ e + gap) cap)) (fun b hb => hh b hb) ht
      obtain ⟨hin, ho⟩ := ih (le_refl (min (τ e + gap) cap)) (fun b hb => hh b hb) ht
      simp only [extend, if_pos he, mem_cons]
      refine ⟨?_, ho⟩
      rintro b (rfl | hb)
      · exact lt_of_lt_of_le he (hm.trans hg)
      · exact hin b hb
    · simp only [extend, if_neg he]
      refine ⟨by simp, ?_⟩
      intro b hb
      rcases List.mem_cons.mp hb with rfl | hb
      · exact not_lt.mp he
      · exact (not_lt.mp he).trans (hh b hb)

theorem dropWhile_extend :
    (l.dropWhile fun e => τ e < (extend τ gap cap stop l).2.1) = (extend τ gap cap stop l).2.2 := by
  obtain ⟨hin, ho⟩ := extend_spec hstop hl hsorted
  have hd : ∀ {taken left : List α} {last : ℤ}, (∀ e ∈ taken, τ e < last) →
      (∀ e ∈ left, last ≤ τ e) → ((taken ++ left).dropWhile fun e => τ e < last) = left := by
    intro taken left last ht hle
    rw [dropWhile_append_of_pos fun e he => by simpa using ht e he]
    cases left with
    | nil => rfl
    | cons e rest =>
      exact dropWhile_cons_of_neg (by simpa using hle e mem_cons_self)
  have := hd hin ho
  rwa [extend_append] at this

end

variable {l r : List α}

theorem extend_append_right (hr : ∀ e ∈ r, (extend τ gap cap stop l).2.1 ≤ τ e) :
    extend τ gap cap stop (l ++ r) =
      ((extend τ gap cap stop l).1, (extend τ gap cap stop l).2.1, (extend τ gap cap stop l).2.2 ++ r) := by
  induction l generalizing stop with
  | nil =>
    cases r with
    | nil => rfl
    | cons e rest =>
      have : stop ≤ τ e := hr e mem_cons_self
      simp [extend, not_lt.mpr this]
  | cons e rest ih =>
    by_cases he : τ e < stop
    · simp only [extend, if_pos he] at hr
      simp only [cons_append, extend, if_pos he, ih hr]
    · simp [extend, if_neg he]

theorem extend_taken (cap stop : ℤ) (l : List α) :
    extend τ gap cap stop (extend τ gap cap stop l).1 =
      ((extend τ gap cap stop l).1, (extend τ gap cap stop l).2.1, []) := by
  induction l generalizing stop with
  | nil => rfl
  | cons e rest ih =>
    by_cases he : τ e < stop
    · simp only [extend, if_pos he, ih]
    · simp only [extend, if_neg he]

variable {υ : β → ℤ} {f : α → β} {β : Type*}

theorem extend_map (hf : ∀ a, υ (f a) = τ a) (cap stop : ℤ)
    (l : List α) : extend υ gap cap stop (l.map f) =
      ((extend τ gap cap stop l).1.map f, (extend τ gap cap stop l).2.1, (extend τ gap cap stop l).2.2.map f) := by
  induction l generalizing stop with
  | nil => rfl
  | cons e rest ih =>
    by_cases he : τ e < stop
    · simp only [extend, hf, if_pos he, ih, map_cons]
    · simp only [extend, hf, if_neg he, map_cons, map_nil]

theorem first_map (hf : ∀ a, υ (f a) = τ a) (a : α)
    (l : List α) : first υ gap span (f a) (l.map f) =
      ((first τ gap span a l).1.map f, (first τ gap span a l).2.1, (first τ gap span a l).2.2.map f) := by
  unfold first
  rw [hf, extend_map hf]

theorem first_split {p : α} {later : List α} (hsorted : (p :: later).Pairwise fun a b => τ a ≤ τ b)
    (hg : 0 < gap) (hs : 0 < span) :
    ((p :: later).filter fun q => τ q ≤ (first τ gap span p later).2.1 - 1) = p :: (first τ gap span p later).1 ∧
    ((p :: later).filter fun q => (first τ gap span p later).2.1 - 1 < τ q) = (first τ gap span p later).2.2 := by
  obtain ⟨hh, ht⟩ := List.pairwise_cons.mp hsorted
  set cap := τ p + span with hc
  set stop := min (τ p + gap) cap with hstop
  have hf : first τ gap span p later = extend τ gap cap stop later := rfl
  obtain ⟨hin, ho⟩ := extend_spec (le_refl stop) hh ht
  have hgr := le_extend_stop (le_refl stop) hh ht
  have hli : p :: later = (p :: (extend τ gap cap stop later).1) ++
      (extend τ gap cap stop later).2.2 := by
    rw [cons_append, extend_append]
  have hta : ∀ q ∈ p :: (extend τ gap cap stop later).1, τ q ≤ (extend τ gap cap stop later).2.1 - 1 := by
    intro q hq
    rcases List.mem_cons.mp hq with rfl | hq
    · omega
    · have := hin q hq
      omega
  rw [hf, hli, filter_append, filter_append]
  constructor
  · rw [List.filter_eq_self.mpr fun q hq => by simpa using hta q hq,
      List.filter_eq_nil_iff.mpr fun q hq => ?_, append_nil]
    have := ho q hq
    simp only [decide_eq_true_eq]
    omega
  · rw [List.filter_eq_nil_iff.mpr fun q hq => ?_, List.filter_eq_self.mpr fun q hq => ?_, nil_append]
    · have := ho q hq
      simp only [decide_eq_true_eq]
      omega
    · have := hta q hq
      simp only [decide_eq_true_eq]
      omega

/-! ### The whole segmentation -/

theorem segments_cons (f : α) (rest : List α) : segments τ gap span (f :: rest) =
      { start := τ f, stop := (first τ gap span f rest).2.1
        items := f :: (first τ gap span f rest).1 } ::
        segments τ gap span (first τ gap span f rest).2.2 := by
  rw [segments]

/-- **Every item is in exactly one segment**, and the segments keep the order. -/
theorem flatten_segments (l : List α) : ((segments τ gap span l).map Segment.items).flatten = l := by
  induction l using segments.induct τ gap span with
  | case1 => simp [segments]
  | case2 f rest s ih =>
    rw [segments_cons, map_cons, flatten_cons, ih, cons_append]
    exact congrArg (f :: ·) (extend_append _ _ rest)

/-- **Segments that stop before the rest begins are independent of it.** -/
theorem segments_append (h : ∀ s ∈ segments τ gap span l, ∀ e ∈ r, s.stop ≤ τ e) :
    segments τ gap span (l ++ r) = segments τ gap span l ++ segments τ gap span r := by
  induction l using segments.induct τ gap span with
  | case1 => simp [segments]
  | case2 f rest s ih =>
    rw [segments_cons] at h ⊢
    have hf : first τ gap span f (rest ++ r) =
        ((first τ gap span f rest).1, (first τ gap span f rest).2.1, (first τ gap span f rest).2.2 ++ r) :=
      extend_append_right fun e he => h _ mem_cons_self e he
    rw [cons_append, segments_cons, hf, cons_append, ih fun s hs => h s (mem_cons_of_mem _ hs)]

theorem segments_first (f : α) (rest : List α) :
    segments τ gap span (f :: (first τ gap span f rest).1) =
      [{ start := τ f, stop := (first τ gap span f rest).2.1
         items := f :: (first τ gap span f rest).1 }] := by
  have ht : first τ gap span f (first τ gap span f rest).1 =
      ((first τ gap span f rest).1, (first τ gap span f rest).2.1, []) := extend_taken _ _ rest
  rw [segments_cons, ht, segments]

theorem bounds_segments (l : List α) : (segments τ gap span l).map (fun s => (s.start, s.stop)) =
      (segments id gap span (l.map τ)).map fun s => (s.start, s.stop) := by
  induction l using segments.induct τ gap span with
  | case1 => simp [segments]
  | case2 f rest s ih =>
    have hm : first id gap span (τ f) (rest.map τ) = ((first τ gap span f rest).1.map τ,
        (first τ gap span f rest).2.1, (first τ gap span f rest).2.2.map τ) :=
      first_map (fun _ => rfl) f rest
    rw [map_cons, segments_cons, segments_cons, hm, map_cons, map_cons, ← ih]
    rfl

end Sparrow.Library.Sessions
