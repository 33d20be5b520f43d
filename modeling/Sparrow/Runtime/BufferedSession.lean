import Sparrow.Library.Sessions
import Sparrow.Runtime.BufferedSteps

/-!
# The sessions of a group

The loop of `BufferedWindow::session` computes the first segment of the greedy
segmentation of the group's events; a drain step that emits a session pops exactly
its events.
-/

namespace Sparrow.Runtime

open Library Model Plan Sessions

/-! ### Time order -/

theorem timeOf_le_of_lt {a b : EventEntry} (h : a.1 < b.1) : timeOf a ≤ timeOf b := by
  rcases Prod.Lex.lt_iff.mp h with hlt | ⟨heq, -⟩
  · exact hlt.le
  · exact heq.le

theorem Group.times_sorted (g : Group) : g.events.entries.Pairwise fun a b => timeOf a ≤ timeOf b :=
  g.events.sorted.imp timeOf_le_of_lt

variable {g : Group} {gap span : ℤ} {f : EventEntry} {rest : List EventEntry}

namespace Group

theorem sessionEnd_eq (gap cap stop : ℤ) (l : List EventEntry) :
    sessionEnd gap cap stop l = (extend timeOf gap cap stop l).2.1 := by
  induction l generalizing stop with
  | nil => rfl
  | cons e rest ih =>
    simp only [sessionEnd, extend]
    by_cases he : timeOf e < stop
    · rw [if_neg (not_le.mpr he), if_pos he, ih]
    · rw [if_pos (not_lt.mp he), if_neg he]

/-- **The session of a group is the first segment of its events.** The source's loop starts
at the first event again, which does not move its end. -/
theorem session_eq (hga : 0 < gap) (hs : 0 < span) (hg : g.events.entries = f :: rest) :
    g.session gap span = some (timeOf f, (first timeOf gap span f rest).2.1) := by
  have hlt : timeOf f < min (timeOf f + gap) (timeOf f + span) := by omega
  simp only [session, SortedMap.first?, hg, List.head?_cons, Option.map_some, sessionEnd_eq, extend, if_pos hlt, first]

theorem session_stop_gt (hga : 0 < gap) (hsp : 0 < span) (hg : g.events.entries = f :: rest) :
    timeOf f < (first timeOf gap span f rest).2.1 := by
  have hs := g.times_sorted
  rw [hg] at hs
  obtain ⟨hh, ht⟩ := List.pairwise_cons.mp hs
  have := le_extend_stop (τ := timeOf) (le_refl (min (timeOf f + gap) (timeOf f + span))) hh ht
  unfold first
  omega

theorem session_stop_le (gap span : ℤ) (f : EventEntry) (rest : List EventEntry) :
    (first timeOf gap span f rest).2.1 ≤ timeOf f + span :=
  extend_stop_le (min_le_right _ _) rest

/-- **Emitting a session pops exactly its events.** -/
theorem settled_session (hga : 0 < gap) (hsp : 0 < span) (hg : g.events.entries = f :: rest) {kind : WindowKind}
    {a b : Int64} (hk : kind.IsSession a b) (time : ℤ) (n : ℕ) :
    (g.settled time (some (toLex ((first timeOf gap span f rest).2.1, n))) kind).events.entries =
      (first timeOf gap span f rest).2.2 := by
  have hs := g.times_sorted
  rw [hg] at hs
  obtain ⟨hh, ht⟩ := List.pairwise_cons.mp hs
  have hf := session_stop_gt hga hsp hg
  have hspe : ∀ e, Group.spent { g with deadline := none } time
      (some (toLex ((first timeOf gap span f rest).2.1, n))) kind e =
        decide (timeOf e < (first timeOf gap span f rest).2.1) := by
    rcases hk with rfl | rfl <;> intro e <;> rfl
  have hfi : ∀ c, g.fired c kind = g := by
    rcases hk with rfl | rfl <;> intro c <;> rfl
  simp only [settled, hfi, SortedMap.entries_popWhile, hg, funext hspe]
  rw [List.dropWhile_cons_of_pos (by simpa using hf)]
  exact dropWhile_extend (le_refl _) hh ht

theorem stop_le_of_mem_left (hg : g.events.entries = f :: rest) {e : EventEntry}
    (he : e ∈ (first timeOf gap span f rest).2.2) :
    e ∈ g.events.entries ∧ (first timeOf gap span f rest).2.1 ≤ timeOf e := by
  have hs := g.times_sorted
  rw [hg] at hs
  obtain ⟨hh, ht⟩ := List.pairwise_cons.mp hs
  refine ⟨?_, (extend_spec (le_refl _) hh ht).2 e he⟩
  rw [hg, ← extend_append (τ := timeOf) (timeOf f + span) (min (timeOf f + gap) (timeOf f + span)) rest]
  exact List.mem_cons_of_mem _ (List.mem_append_right _ he)

end Group

end Sparrow.Runtime
